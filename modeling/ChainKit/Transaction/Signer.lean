import ChainKit.ClientError
import ChainKit.Key.Signing
import ChainKit.SortedMap

namespace ChainKit

structure SigningRequest where
  chainId : Checksum256
  packed : Bytes
  keys : List PublicKey

namespace SigningRequest

/-- The digest of the chain id, the packed transaction and the digest of no context-free data, which
is 32 zero bytes. -/
def digestOf (chainId : Checksum256) (packed : Bytes) : Checksum256 :=
  Hash.sha256 (chainId.bytes ++ packed ++ List.replicate 32 0)

def digest (r : SigningRequest) : Checksum256 := digestOf r.chainId r.packed

end SigningRequest

structure Signer where
  keys : Except ClientError (List PublicKey)
  sign : SigningRequest → Except ClientError (List Signature)

structure Keychain where
  keys : SortedMap PublicKey PrivateKey
deriving Inhabited

namespace Keychain

def empty : Keychain := ⟨.empty⟩

def insert (k : Keychain) (key : PrivateKey) : Except ClientError (PublicKey × Keychain) :=
  match key.publicKey with
  | .ok pub => .ok (pub, ⟨k.keys.insert pub key⟩)
  | .error e => .error (.key e)

/-- Adds the private keys with the given texts; the first bad one is the error. -/
def insertTexts (k : Keychain) : List String → Except ClientError Keychain
  | [] => .ok k
  | s :: rest =>
    match PrivateKey.parse s with
    | .error e => .error (.key e)
    | .ok key =>
      match k.insert key with
      | .error e => .error e
      | .ok (_, k) => insertTexts k rest

def publicKeys (k : Keychain) : List PublicKey := k.keys.keys

def size (k : Keychain) : Nat := k.keys.size

def debug (k : Keychain) : String :=
  "SoftkeySignatureProvider \x7b public_keys: [" ++
    ", ".intercalate (k.publicKeys.map PublicKey.debug) ++ "], .. \x7d"

def signWith (k : Keychain) (entropy : Nat → Bytes) (digest : Checksum256) (pub : PublicKey) :
    Except ClientError Signature :=
  match k.keys.find? pub with
  | none => .error (.signer (.noPrivateKey pub))
  | some key => (key.sign digest entropy).mapError .key

/-- The signer that holds the keys; `entropy i` is the randomness of attempt `i`. -/
def signer (k : Keychain) (entropy : Nat → Bytes) : Signer where
  keys := .ok k.publicKeys
  sign r := r.keys.mapM (k.signWith entropy r.digest)

end Keychain
end ChainKit
