import CharGrammar.Words.Source

namespace CharGrammar

namespace ChaCha

def rotateLeft (x n : UInt32) : UInt32 := (x <<< n) ||| (x >>> (32 - n))

def rotateRight (x n : UInt32) : UInt32 := (x >>> n) ||| (x <<< (32 - n))

/-- A row of the cipher's square of words. -/
structure Row where
  w0 : UInt32
  w1 : UInt32
  w2 : UInt32
  w3 : UInt32
deriving DecidableEq, Repr

namespace Row

def map (f : UInt32 → UInt32) (r : Row) : Row := ⟨f r.w0, f r.w1, f r.w2, f r.w3⟩

def zip (f : UInt32 → UInt32 → UInt32) (r s : Row) : Row :=
  ⟨f r.w0 s.w0, f r.w1 s.w1, f r.w2 s.w2, f r.w3 s.w3⟩

/-- Moves each word one place to the left, and the first to the end. -/
def shift (r : Row) : Row := ⟨r.w1, r.w2, r.w3, r.w0⟩

instance : Add Row := ⟨zip (· + ·)⟩

instance : XorOp Row := ⟨zip (· ^^^ ·)⟩

def rotate (r : Row) (n : UInt32) : Row := r.map (rotateLeft · n)

def toList (r : Row) : List UInt32 := [r.w0, r.w1, r.w2, r.w3]

end Row

/-- The state of the cipher, row by row. -/
structure Square where
  a : Row
  b : Row
  c : Row
  d : Row
deriving DecidableEq, Repr

namespace Square

/-- A quarter round on each column. -/
def mixColumns (s : Square) : Square :=
  let a := s.a + s.b
  let d := (s.d ^^^ a).rotate 16
  let c := s.c + d
  let b := (s.b ^^^ c).rotate 12
  let a := a + b
  let d := (d ^^^ a).rotate 8
  let c := c + d
  let b := (b ^^^ c).rotate 7
  ⟨a, b, c, d⟩

/-- A quarter round on each diagonal. -/
def mixDiagonals (s : Square) : Square :=
  let m := mixColumns ⟨s.a, s.b.shift, s.c.shift.shift, s.d.shift.shift.shift⟩
  ⟨m.a, m.b.shift.shift.shift, m.c.shift.shift, m.d.shift⟩

/-- So many double rounds. -/
def mix : Nat → Square → Square
  | 0, s => s
  | n + 1, s => mix n s.mixColumns.mixDiagonals

instance : Add Square := ⟨fun s t => ⟨s.a + t.a, s.b + t.b, s.c + t.c, s.d + t.d⟩⟩

def toList (s : Square) : List UInt32 :=
  s.a.toList ++ s.b.toList ++ s.c.toList ++ s.d.toList

end Square

structure KeyWords where
  low : Row
  high : Row
deriving DecidableEq, Repr

/-- The words of the block with a number. -/
def block (key : KeyWords) (number : UInt64) : Square :=
  let input : Square := ⟨⟨0x61707865, 0x3320646e, 0x79622d32, 0x6b206574⟩, key.low, key.high,
    ⟨number.toUInt32, (number >>> 32).toUInt32, 0, 0⟩⟩
  input.mix 6 + input

def advance (state : UInt64) : UInt64 := state * 6364136223846793005 + 11634580027462260723

/-- A key word: the state folded to 32 bits and turned by its five highest bits. -/
def keyWord (state : UInt64) : UInt32 :=
  rotateRight (((state >>> 18) ^^^ state) >>> 27).toUInt32 (state >>> 59).toUInt32

/-- Four key words from the states that follow, and the last of these states. -/
def keyRow (state : UInt64) : Row × UInt64 :=
  let s0 := advance state
  let s1 := advance s0
  let s2 := advance s1
  let s3 := advance s2
  (⟨keyWord s0, keyWord s1, keyWord s2, keyWord s3⟩, s3)

def KeyWords.ofSeed (seed : UInt64) : KeyWords :=
  let (low, state) := keyRow seed
  ⟨low, (keyRow state).1⟩

/-- The words of the block before `number` that are not drawn yet, and the blocks from there. -/
structure Stream where
  key : KeyWords
  number : UInt64
  pending : List UInt32

namespace Stream

def ofSeed (seed : UInt64) : Stream := ⟨.ofSeed seed, 0, []⟩

instance : WordSource Stream where
  next s :=
    match s.pending with
    | word :: rest => (word, { s with pending := rest })
    | [] =>
      let square := block s.key s.number
      (square.a.w0, ⟨s.key, s.number + 1, square.toList.tail⟩)

end Stream

end ChaCha

end CharGrammar
