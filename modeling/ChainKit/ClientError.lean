import ChainKit.Abi.Error
import ChainKit.Checksum

namespace ChainKit

inductive ValueError where
  | name (error : Name.Error)
  | token (error : Token.Error)
  | time (error : Time.Error)
  | checksum (error : Checksum.Error)
deriving DecidableEq, Repr

def ValueError.message : ValueError → String
  | .name e => "name error: " ++ e.message
  | .token e => "asset error: " ++ e.message
  | .time e => "time error: " ++ e.message
  | .checksum e => "checksum error: " ++ e.message

inductive NodeFault where
  | unknownBlock (number : UInt32)
  | unknownAccount (account : Name)
deriving DecidableEq, Repr

namespace NodeFault

def code : Int := 404

def message : NodeFault → String
  | .unknownBlock n => "Unknown block: " ++ toString n.toNat
  | .unknownAccount a => "Unknown account: " ++ a.text

end NodeFault

inductive SignerFault where
  | noSignatures
  | noPrivateKey (key : PublicKey)
deriving DecidableEq

def SignerFault.message : SignerFault → String
  | .noSignatures => "provider returned no signatures"
  | .noPrivateKey key => "no private key for " ++ key.text

inductive RequiredField where
  | chainId
  | refBlock
  | expiration
deriving DecidableEq, Repr

def RequiredField.text : RequiredField → String
  | .chainId => "chain_id"
  | .refBlock => "ref_block_prefix"
  | .expiration => "expiration"

inductive ClientError where
  | abi (error : Abi.Error)
  | key (error : Key.Error)
  | value (error : ValueError)
  | node (fault : NodeFault)
  | hex (error : Hex.Error)
  | malformedJson
  | missingField (field : RequiredField)
  | missingAbis (accounts : List Name)
  | abiHashMismatch (account : Name) (declared computed : Checksum256)
  | chainIdMismatch (provided reported : Checksum256)
  | unpackedAction (account name : Name)
  | signer (fault : SignerFault)
  | notSigned

def ClientError.message : ClientError → String
  | .abi e => "ABI error: " ++ e.message
  | .key e => "Crypto error: " ++ e.message
  | .value e => "Invalid value: " ++ e.message
  | .node fault => "RPC error: " ++ toString NodeFault.code ++ " - " ++ fault.message
  | .hex e => "Invalid hex: " ++ e.message
  | .malformedJson => "Serialization error"
  | .missingField f => "Missing required field: " ++ f.text
  | .missingAbis accounts =>
    "Missing ABIs for [" ++ ", ".intercalate (accounts.map Name.debug) ++ "]"
  | .abiHashMismatch account declared computed =>
    "ABI hash mismatch for " ++ account.text ++ ": declared " ++ Checksum.text declared ++
      ", computed " ++ Checksum.text computed
  | .chainIdMismatch provided reported =>
    "Chain id mismatch: provided " ++ Checksum.text provided ++ ", node reports " ++
      Checksum.text reported
  | .unpackedAction account name =>
    "Action " ++ account.text ++ "::" ++ name.text ++ " data is not serialized"
  | .signer fault => "Signature provider error: " ++ fault.message
  | .notSigned => "Transaction must be signed before broadcast"

end ChainKit
