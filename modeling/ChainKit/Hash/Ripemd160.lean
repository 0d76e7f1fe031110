import ChainKit.Hash.Words

namespace ChainKit.Hash

namespace Ripemd160

def leftWords : List (List Nat) :=
  [[0, 1, 2, 3, 4, 5, 6, 7, 8, 9, 10, 11, 12, 13, 14, 15],
    [7, 4, 13, 1, 10, 6, 15, 3, 12, 0, 9, 5, 2, 14, 11, 8],
    [3, 10, 14, 4, 9, 15, 8, 1, 2, 7, 0, 6, 13, 11, 5, 12],
    [1, 9, 11, 10, 0, 8, 12, 4, 13, 3, 7, 15, 14, 5, 6, 2],
    [4, 0, 5, 9, 7, 12, 2, 10, 14, 1, 3, 8, 11, 6, 15, 13]]

def rightWords : List (List Nat) :=
  [[5, 14, 7, 0, 9, 2, 11, 4, 13, 6, 15, 8, 1, 10, 3, 12],
    [6, 11, 3, 7, 0, 13, 5, 10, 14, 15, 8, 12, 4, 9, 1, 2],
    [15, 5, 1, 3, 7, 14, 6, 9, 11, 8, 12, 2, 10, 0, 4, 13],
    [8, 6, 4, 1, 3, 11, 15, 0, 5, 12, 2, 13, 9, 7, 10, 14],
    [12, 15, 10, 4, 1, 5, 8, 7, 6, 2, 13, 14, 0, 3, 9, 11]]

def leftShifts : List (List Nat) :=
  [[11, 14, 15, 12, 5, 8, 7, 9, 11, 13, 14, 15, 6, 7, 9, 8],
    [7, 6, 8, 13, 11, 9, 7, 15, 7, 12, 15, 9, 11, 7, 13, 12],
    [11, 13, 6, 7, 14, 9, 13, 15, 14, 8, 13, 6, 5, 12, 7, 5],
    [11, 12, 14, 15, 14, 15, 9, 8, 9, 14, 5, 6, 8, 6, 5, 12],
    [9, 15, 5, 11, 6, 8, 13, 12, 5, 12, 13, 14, 11, 8, 5, 6]]

def rightShifts : List (List Nat) :=
  [[8, 9, 9, 11, 13, 15, 15, 5, 7, 7, 8, 11, 14, 14, 12, 6],
    [9, 13, 15, 7, 12, 8, 9, 11, 7, 7, 12, 7, 6, 15, 13, 11],
    [9, 7, 15, 11, 8, 6, 6, 14, 12, 13, 5, 14, 13, 13, 7, 5],
    [15, 5, 8, 11, 14, 14, 6, 14, 6, 9, 12, 9, 12, 5, 15, 8],
    [8, 5, 12, 9, 12, 5, 14, 6, 8, 13, 6, 5, 15, 13, 11, 11]]

def leftConstants : List UInt32 := [0, 0x5a827999, 0x6ed9eba1, 0x8f1bbcdc, 0xa953fd4e]

def rightConstants : List UInt32 := [0x50a28be6, 0x5c4dd124, 0x6d703ef3, 0x7a6d76e9, 0]

def mixers : List (UInt32 → UInt32 → UInt32 → UInt32) :=
  [fun x y z => x ^^^ y ^^^ z,
    fun x y z => (x &&& y) ||| (~~~x &&& z),
    fun x y z => (x ||| ~~~y) ^^^ z,
    fun x y z => (x &&& z) ||| (y &&& ~~~z),
    fun x y z => x ^^^ (y ||| ~~~z)]

structure State where
  a : UInt32
  b : UInt32
  c : UInt32
  d : UInt32
  e : UInt32

def initial : State := ⟨0x67452301, 0xefcdab89, 0x98badcfe, 0x10325476, 0xc3d2e1f0⟩

def State.bytes (s : State) : Bytes :=
  [s.a, s.b, s.c, s.d, s.e].flatMap fun w => Bytes.ofNatLE 4 w.toNat

def step (f : UInt32 → UInt32 → UInt32 → UInt32) (k : UInt32) (s : State) (w : UInt32) (r : Nat) :
    State :=
  ⟨s.e, rotateLeft (s.a + f s.b s.c s.d + w + k) r + s.e, s.b, rotateLeft s.c 10, s.d⟩

def round (message : List UInt32) (f : UInt32 → UInt32 → UInt32 → UInt32) (k : UInt32)
    (order shifts : List Nat) (s : State) : State :=
  (order.zip shifts).foldl (fun s (i, r) => step f k s (message.getD i 0) r) s

def line (message : List UInt32) (s : State) :
    List ((UInt32 → UInt32 → UInt32 → UInt32) × UInt32 × List Nat × List Nat) → State
  | [] => s
  | (f, k, order, shifts) :: rest => line message (round message f k order shifts s) rest

def leftLine := mixers.zip (leftConstants.zip (leftWords.zip leftShifts))

def rightLine := mixers.reverse.zip (rightConstants.zip (rightWords.zip rightShifts))

def compress (s : State) (block : Bytes) : State :=
  let message := words Bytes.toNatLE block
  let l := line message s leftLine
  let r := line message s rightLine
  ⟨s.b + l.c + r.d, s.c + l.d + r.e, s.d + l.e + r.a, s.e + l.a + r.b, s.a + l.b + r.c⟩

end Ripemd160

def ripemd160Bytes (message : Bytes) : Bytes :=
  ((blocks (pad (Bytes.ofNatLE 8) message)).foldl Ripemd160.compress Ripemd160.initial).bytes

theorem length_ripemd160Bytes (message : Bytes) : (ripemd160Bytes message).length = 20 := by
  simp [ripemd160Bytes, Ripemd160.State.bytes]

def ripemd160 (message : Bytes) : Blob 20 :=
  ⟨ripemd160Bytes message, length_ripemd160Bytes message⟩

end ChainKit.Hash
