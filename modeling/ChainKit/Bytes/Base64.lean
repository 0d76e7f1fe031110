import ChainKit.Bytes.Basic

namespace ChainKit.Base64

def alphabet : List Char :=
  "ABCDEFGHIJKLMNOPQRSTUVWXYZabcdefghijklmnopqrstuvwxyz0123456789+/".toList

def symbol (d : Nat) : Char := alphabet.getD d 'A'

def symbolValue? (c : Char) : Option Nat := alphabet.idxOf? c

/-- The symbols of a byte string, three bytes to four symbols, without padding. -/
def encodeUnpadded : Bytes → List Char
  | a :: b :: c :: rest =>
    let n := a.toNat * 65536 + b.toNat * 256 + c.toNat
    symbol (n / 262144) :: symbol (n / 4096 % 64) :: symbol (n / 64 % 64) :: symbol (n % 64) ::
      encodeUnpadded rest
  | [a, b] =>
    let n := a.toNat * 256 + b.toNat
    [symbol (n / 1024), symbol (n / 16 % 64), symbol (n % 16 * 4)]
  | [a] => [symbol (a.toNat / 4), symbol (a.toNat % 4 * 16)]
  | [] => []

def encode (bs : Bytes) : String :=
  String.ofList (encodeUnpadded bs ++ List.replicate ((3 - bs.length % 3) % 3) '=')

def decodeValues : List Nat → Option Bytes
  | a :: b :: c :: d :: rest =>
    let n := a * 262144 + b * 4096 + c * 64 + d
    (decodeValues rest).map
      ([UInt8.ofNat (n / 65536), UInt8.ofNat (n / 256), UInt8.ofNat n] ++ ·)
  | [a, b, c] =>
    let n := a * 1024 + b * 16 + c / 4
    if c % 4 = 0 then some [UInt8.ofNat (n / 256), UInt8.ofNat n] else none
  | [a, b] => if b % 16 = 0 then some [UInt8.ofNat (a * 4 + b / 16)] else none
  | [_] => none
  | [] => some []

def decodeUnpadded (cs : List Char) : Option Bytes :=
  (cs.mapM symbolValue?).bind decodeValues

/-- Drops the pad characters that fill the last group of four up, of which there are two at most. -/
def unpad? (cs : List Char) : Option (List Char) :=
  if cs.length % 4 ≠ 0 then none
  else
    match cs.reverse with
    | '=' :: '=' :: rest => some rest.reverse
    | '=' :: rest => some rest.reverse
    | _ => some cs

def decodePadded (cs : List Char) : Option Bytes := (unpad? cs).bind decodeUnpadded

def trimPad (cs : List Char) : List Char := (cs.reverse.dropWhile (· = '=')).reverse

/-- The pad characters behind a text of so many bytes. -/
def padding (length : Nat) : List Char := List.replicate ((4 - length % 4) % 4) '='

/-- Reads Base64 text, whatever pad characters are at its end. The length is that of the UTF-8
form. -/
def decode? (s : String) : Option Bytes :=
  let cs := trimPad s.toList
  decodePadded (cs ++ padding (String.ofList cs).utf8ByteSize)

end ChainKit.Base64
