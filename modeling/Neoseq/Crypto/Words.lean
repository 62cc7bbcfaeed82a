import Mathlib

/-! Words of 32 bits, their big-endian bytes, and the operators that a language with one type of
numbers has for them. A number stands for the word that it is modulo 2 ^ 32: the operators on bits
take words and give numbers back, sums are of numbers. -/

namespace Neoseq.Crypto

abbrev Byte := BitVec 8
abbrev Word := BitVec 32

/-! ## Numbers as words -/

/-- `ToUint32`, as bits. -/
def word (x : Int) : Word := BitVec.ofInt 32 x

def bitAnd (x y : Int) : Int := (word x &&& word y).toInt

def bitOr (x y : Int) : Int := (word x ||| word y).toInt

def bitXor (x y : Int) : Int := (word x ^^^ word y).toInt

def bitNot (x : Int) : Int := (~~~word x).toInt

/-- `x << n`. -/
def shiftLeft (x : Int) (n : Nat) : Int := (word x <<< (n % 32)).toInt

/-- `x >> n`, which keeps the sign. -/
def shiftRight (x : Int) (n : Nat) : Int := ((word x).sshiftRight (n % 32)).toInt

/-- `x >>> n`, the only operator whose result has no sign. -/
def shiftRightZero (x : Int) (n : Nat) : Int := (word x >>> (n % 32)).toNat

@[simp] theorem word_bitAnd (x y : Int) : word (bitAnd x y) = word x &&& word y :=
  BitVec.ofInt_toInt

@[simp] theorem word_bitOr (x y : Int) : word (bitOr x y) = word x ||| word y :=
  BitVec.ofInt_toInt

@[simp] theorem word_bitXor (x y : Int) : word (bitXor x y) = word x ^^^ word y :=
  BitVec.ofInt_toInt

@[simp] theorem word_bitNot (x : Int) : word (bitNot x) = ~~~word x :=
  BitVec.ofInt_toInt

@[simp] theorem word_shiftLeft (x : Int) (n : Nat) :
    word (shiftLeft x n) = word x <<< (n % 32) :=
  BitVec.ofInt_toInt

@[simp] theorem word_toNat (w : Word) : word (w.toNat : Int) = w := by
  unfold word
  rw [BitVec.ofInt_natCast, BitVec.ofNat_toNat, BitVec.setWidth_eq]

@[simp] theorem word_shiftRightZero (x : Int) (n : Nat) :
    word (shiftRightZero x n) = word x >>> (n % 32) :=
  word_toNat _

@[simp] theorem word_add (x y : Int) : word (x + y) = word x + word y :=
  BitVec.ofInt_add x y

/-- A number that a double holds, as it holds every smaller one. Sums are modelled as sums of
integers, which they are where the result is exact. -/
def Exact (x : Int) : Prop := -9007199254740992 ≤ x ∧ x ≤ 9007199254740992

theorem toInt_bounds (w : Word) : -2147483648 ≤ w.toInt ∧ w.toInt < 2147483648 := by
  have hle := w.le_toInt
  have hlt := w.toInt_lt
  omega

theorem shiftRightZero_bounds (x : Int) (n : Nat) :
    0 ≤ shiftRightZero x n ∧ shiftRightZero x n < 4294967296 := by
  have hlt := (word x >>> (n % 32)).isLt
  unfold shiftRightZero
  omega

/-! ## Bytes -/

/-- The last `count` bytes of a number, the highest first. -/
def bigEndian : (count : Nat) → Nat → List Byte
  | 0, _ => []
  | count + 1, value => BitVec.ofNat 8 (value / 256 ^ count) :: bigEndian count value

/-- The word that four bytes are. -/
def ofBytes (bytes : List Byte) : Word :=
  BitVec.ofNat 32 (bytes.foldl (fun value byte => value * 256 + byte.toNat) 0)

@[simp] theorem length_bigEndian (count value : Nat) :
    (bigEndian count value).length = count := by
  induction count with
  | zero => rfl
  | succ count ih => rw [bigEndian, List.length_cons, ih]

theorem bigEndian_add (m n value : Nat) :
    bigEndian (m + n) value = bigEndian m (value / 256 ^ n) ++ bigEndian n value := by
  induction m with
  | zero => rw [Nat.zero_add, bigEndian, List.nil_append]
  | succ m ih =>
    rw [Nat.add_right_comm, bigEndian, bigEndian, ih, Nat.div_div_eq_div_mul, ← Nat.pow_add,
      Nat.add_comm n m, List.cons_append]

theorem bigEndian_mod (n value : Nat) {bound : Nat} (h : n ≤ bound) :
    bigEndian n (value % 256 ^ bound) = bigEndian n value := by
  induction n with
  | zero => rfl
  | succ n ih =>
    rw [bigEndian, bigEndian, ih (by omega)]
    refine congrArg (· :: _) (BitVec.eq_of_toNat_eq ?_)
    rw [BitVec.toNat_ofNat, BitVec.toNat_ofNat]
    obtain ⟨k, rfl⟩ : ∃ k, bound = n + 1 + k := ⟨bound - (n + 1), by omega⟩
    rw [Nat.pow_add, Nat.pow_succ, Nat.mul_assoc, Nat.mod_mul_right_div_self,
      Nat.mod_mul_right_mod]

/-! ## Buffers -/

/-- The bytes from a place on, replaced by others. -/
def overwrite (buffer : List Byte) (offset : Nat) (bytes : List Byte) : List Byte :=
  buffer.take offset ++ bytes ++ buffer.drop (offset + bytes.length)

theorem overwrite_append (before middle after bytes : List Byte) {offset : Nat}
    (hoffset : offset = before.length) (hlength : bytes.length = middle.length) :
    overwrite (before ++ (middle ++ after)) offset bytes = before ++ (bytes ++ after) := by
  subst hoffset
  unfold overwrite
  rw [List.take_left, hlength, ← List.append_assoc before, ← List.length_append, List.drop_left,
    List.append_assoc]

end Neoseq.Crypto
