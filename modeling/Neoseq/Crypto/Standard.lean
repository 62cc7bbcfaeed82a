import Neoseq.Crypto.Words

/-! SHA-256 as FIPS 180-4 defines it, for messages of whole bytes: padding (5.1.1), the division
into blocks (5.2.1), the functions (4.1.2), the constants (4.2.2, 5.3.3) and the computation
(6.2). -/

namespace Neoseq.Crypto.Standard

/-! ## Constants -/

def primes : List Nat :=
  [2, 3, 5, 7, 11, 13, 17, 19, 23, 29, 31, 37, 41, 43, 47, 53, 59, 61, 67, 71, 73, 79, 83, 89,
    97, 101, 103, 107, 109, 113, 127, 131, 137, 139, 149, 151, 157, 163, 167, 173, 179, 181,
    191, 193, 197, 199, 211, 223, 227, 229, 233, 239, 241, 251, 257, 263, 269, 271, 277, 281,
    283, 293, 307, 311]

/-- They are the primes below 312, of which a composite one has a divisor below 18. -/
theorem mem_primes {n : Nat} (h : n < 312) : n ∈ primes ↔ n.Prime := by
  have hfilter : ((List.range 312).filter fun n =>
      decide (2 ≤ n ∧ ∀ m < 18, 2 ≤ m → m * m ≤ n → ¬m ∣ n)) = primes := by decide +kernel
  rw [← hfilter, List.mem_filter, List.mem_range, decide_eq_true_iff, and_iff_right h,
    Nat.prime_def_le_sqrt]
  refine and_congr_right fun _ => ⟨fun hnot m hm hsqrt => ?_, fun hnot m _ hm hsquare => ?_⟩
  · have hsquare := Nat.le_sqrt.mp hsqrt
    exact hnot m (by nlinarith) hm hsquare
  · exact hnot m hm (Nat.le_sqrt.mpr hsquare)

/-- The first 32 bits of the fractional part of the root of degree `k` of `n`: with a whole part
in front of them they are the root of `n * 2 ^ (32 * k)`, rounded down. -/
def IsRootFraction (k n : Nat) (w : Word) : Prop :=
  ∃ whole, (whole * 2 ^ 32 + w.toNat) ^ k ≤ n * 2 ^ (32 * k) ∧
    n * 2 ^ (32 * k) < (whole * 2 ^ 32 + w.toNat + 1) ^ k

/-- The fractional parts of the cube roots of the first 64 primes. -/
def constants : List Word :=
  [0x428a2f98, 0x71374491, 0xb5c0fbcf, 0xe9b5dba5, 0x3956c25b, 0x59f111f1, 0x923f82a4, 0xab1c5ed5,
    0xd807aa98, 0x12835b01, 0x243185be, 0x550c7dc3, 0x72be5d74, 0x80deb1fe, 0x9bdc06a7, 0xc19bf174,
    0xe49b69c1, 0xefbe4786, 0x0fc19dc6, 0x240ca1cc, 0x2de92c6f, 0x4a7484aa, 0x5cb0a9dc, 0x76f988da,
    0x983e5152, 0xa831c66d, 0xb00327c8, 0xbf597fc7, 0xc6e00bf3, 0xd5a79147, 0x06ca6351, 0x14292967,
    0x27b70a85, 0x2e1b2138, 0x4d2c6dfc, 0x53380d13, 0x650a7354, 0x766a0abb, 0x81c2c92e, 0x92722c85,
    0xa2bfe8a1, 0xa81a664b, 0xc24b8b70, 0xc76c51a3, 0xd192e819, 0xd6990624, 0xf40e3585, 0x106aa070,
    0x19a4c116, 0x1e376c08, 0x2748774c, 0x34b0bcb5, 0x391c0cb3, 0x4ed8aa4a, 0x5b9cca4f, 0x682e6ff3,
    0x748f82ee, 0x78a5636f, 0x84c87814, 0x8cc70208, 0x90befffa, 0xa4506ceb, 0xbef9a3f7, 0xc67178f2]

/-- The fractional parts of the square roots of the first eight primes. -/
def initialHash : List Word :=
  [0x6a09e667, 0xbb67ae85, 0x3c6ef372, 0xa54ff53a, 0x510e527f, 0x9b05688c, 0x1f83d9ab, 0x5be0cd19]

theorem length_primes : primes.length = 64 := rfl

theorem constants_roots : ∀ p ∈ primes.zip constants, IsRootFraction 3 p.1 p.2 := by
  have hroots : ∀ p ∈ primes.zip constants, ∃ whole < 7,
      (whole * 2 ^ 32 + p.2.toNat) ^ 3 ≤ p.1 * 2 ^ (32 * 3) ∧
        p.1 * 2 ^ (32 * 3) < (whole * 2 ^ 32 + p.2.toNat + 1) ^ 3 := by decide +kernel
  intro p hp
  obtain ⟨whole, -, hwhole⟩ := hroots p hp
  exact ⟨whole, hwhole⟩

theorem initialHash_roots : ∀ p ∈ primes.zip initialHash, IsRootFraction 2 p.1 p.2 := by
  have hroots : ∀ p ∈ primes.zip initialHash, ∃ whole < 5,
      (whole * 2 ^ 32 + p.2.toNat) ^ 2 ≤ p.1 * 2 ^ (32 * 2) ∧
        p.1 * 2 ^ (32 * 2) < (whole * 2 ^ 32 + p.2.toNat + 1) ^ 2 := by decide +kernel
  intro p hp
  obtain ⟨whole, -, hwhole⟩ := hroots p hp
  exact ⟨whole, hwhole⟩

/-! ## Functions -/

def choice (x y z : Word) : Word := (x &&& y) ^^^ (~~~x &&& z)

def majority (x y z : Word) : Word := (x &&& y) ^^^ (x &&& z) ^^^ (y &&& z)

/-- The capital sigmas, of the rounds. -/
def bigSigma0 (x : Word) : Word := x.rotateRight 2 ^^^ x.rotateRight 13 ^^^ x.rotateRight 22

def bigSigma1 (x : Word) : Word := x.rotateRight 6 ^^^ x.rotateRight 11 ^^^ x.rotateRight 25

/-- The small sigmas, of the message schedule. -/
def smallSigma0 (x : Word) : Word := x.rotateRight 7 ^^^ x.rotateRight 18 ^^^ x >>> 3

def smallSigma1 (x : Word) : Word := x.rotateRight 17 ^^^ x.rotateRight 19 ^^^ x >>> 10

/-! ## Padding -/

/-- The number of zero bytes after the byte that ends a message of a length. -/
def zeros (length : Nat) : Nat := (119 - length % 64) % 64

/-- It is the smallest after which eight bytes end a block. -/
theorem zeros_spec (length : Nat) : (length + 1 + zeros length) % 64 = 56 ∧ zeros length < 64 := by
  unfold zeros
  omega

def padded (message : List Byte) : List Byte :=
  message ++ (0x80 :: List.replicate (zeros message.length) 0) ++
    bigEndian 8 (8 * message.length)

theorem length_padded (message : List Byte) :
    (padded message).length = message.length + 9 + zeros message.length := by
  unfold padded
  rw [List.length_append, List.length_append, List.length_cons, List.length_replicate,
    length_bigEndian]
  omega

/-! ## Blocks -/

/-- The words of a block. -/
def messageWord (bytes : List Byte) (block t : Nat) : Word :=
  ofBytes ((bytes.drop (64 * block + 4 * t)).take 4)

/-- The message schedule of a block. -/
def schedule (M : Nat → Word) (t : Nat) : Word :=
  if t < 16 then M t
  else smallSigma1 (schedule M (t - 2)) + schedule M (t - 7) + smallSigma0 (schedule M (t - 15)) +
    schedule M (t - 16)

/-- The eight working variables, and the eight words of a hash value. -/
structure Eight (α : Type) where
  a : α
  b : α
  c : α
  d : α
  e : α
  f : α
  g : α
  h : α
  deriving DecidableEq

namespace Eight
variable {α β : Type}

def map (f : α → β) (v : Eight α) : Eight β :=
  ⟨f v.a, f v.b, f v.c, f v.d, f v.e, f v.f, f v.g, f v.h⟩

def toList (v : Eight α) : List α := [v.a, v.b, v.c, v.d, v.e, v.f, v.g, v.h]

def add (v w : Eight Word) : Eight Word :=
  ⟨v.a + w.a, v.b + w.b, v.c + w.c, v.d + w.d, v.e + w.e, v.f + w.f, v.g + w.g, v.h + w.h⟩

end Eight

def round (W : Nat → Word) (v : Eight Word) (t : Nat) : Eight Word :=
  let T1 := v.h + bigSigma1 v.e + choice v.e v.f v.g + constants.getD t 0 + W t
  let T2 := bigSigma0 v.a + majority v.a v.b v.c
  ⟨T1 + T2, v.a, v.b, v.c, v.d + T1, v.e, v.f, v.g⟩

/-- The hash value after a block. -/
def compress (H : Eight Word) (M : Nat → Word) : Eight Word :=
  H.add ((List.range 64).foldl (round (schedule M)) H)

def firstHash : Eight Word :=
  ⟨0x6a09e667, 0xbb67ae85, 0x3c6ef372, 0xa54ff53a, 0x510e527f, 0x9b05688c, 0x1f83d9ab, 0x5be0cd19⟩

/-- The hash value after the first blocks of padded bytes. -/
def hashBlocks (bytes : List Byte) (blocks : Nat) : Eight Word :=
  (List.range blocks).foldl (fun H i => compress H (messageWord bytes i)) firstHash

def digest (message : List Byte) : List Byte :=
  let bytes := padded message
  (hashBlocks bytes (bytes.length / 64)).toList.flatMap fun w => bigEndian 4 w.toNat

theorem schedule_of_lt {M : Nat → Word} {t : Nat} (h : t < 16) : schedule M t = M t := by
  rw [schedule, if_pos h]

theorem schedule_of_ge {M : Nat → Word} {t : Nat} (h : 16 ≤ t) :
    schedule M t = smallSigma1 (schedule M (t - 2)) + schedule M (t - 7) +
      smallSigma0 (schedule M (t - 15)) + schedule M (t - 16) := by
  rw [schedule, if_neg (by omega)]

theorem hashBlocks_succ (bytes : List Byte) (n : Nat) :
    hashBlocks bytes (n + 1) = compress (hashBlocks bytes n) (messageWord bytes n) := by
  unfold hashBlocks
  rw [List.range_succ, List.foldl_append, List.foldl_cons, List.foldl_nil]

end Neoseq.Crypto.Standard
