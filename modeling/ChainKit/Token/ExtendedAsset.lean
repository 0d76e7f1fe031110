import ChainKit.Name
import ChainKit.Token.Asset

namespace ChainKit

structure ExtendedAsset where
  quantity : Asset
  contract : Name
deriving DecidableEq, Repr, Inhabited

namespace ExtendedAsset

def toBytes (a : ExtendedAsset) : Bytes := a.quantity.toBytes ++ a.contract.toBytes

end ExtendedAsset
end ChainKit
