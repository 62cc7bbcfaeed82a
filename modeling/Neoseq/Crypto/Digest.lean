import Neoseq.Crypto.Standard

/-! The digest that is carried for contexts without one of the platform's. Its words are the
elements of typed arrays, and between them the numbers that the operators make of them. -/

namespace Neoseq.Crypto
open Standard (Eight)

/-- `ROUND_CONSTANTS`. -/
def roundConstants : List Word :=
  [0x428a2f98, 0x71374491, 0xb5c0fbcf, 0xe9b5dba5, 0x3956c25b, 0x59f111f1, 0x923f82a4, 0xab1c5ed5,
    0xd807aa98, 0x12835b01, 0x243185be, 0x550c7dc3, 0x72be5d74, 0x80deb1fe, 0x9bdc06a7, 0xc19bf174,
    0xe49b69c1, 0xefbe4786, 0x0fc19dc6, 0x240ca1cc, 0x2de92c6f, 0x4a7484aa, 0x5cb0a9dc, 0x76f988da,
    0x983e5152, 0xa831c66d, 0xb00327c8, 0xbf597fc7, 0xc6e00bf3, 0xd5a79147, 0x06ca6351, 0x14292967,
    0x27b70a85, 0x2e1b2138, 0x4d2c6dfc, 0x53380d13, 0x650a7354, 0x766a0abb, 0x81c2c92e, 0x92722c85,
    0xa2bfe8a1, 0xa81a664b, 0xc24b8b70, 0xc76c51a3, 0xd192e819, 0xd6990624, 0xf40e3585, 0x106aa070,
    0x19a4c116, 0x1e376c08, 0x2748774c, 0x34b0bcb5, 0x391c0cb3, 0x4ed8aa4a, 0x5b9cca4f, 0x682e6ff3,
    0x748f82ee, 0x78a5636f, 0x84c87814, 0x8cc70208, 0x90befffa, 0xa4506ceb, 0xbef9a3f7, 0xc67178f2]

/-- `INITIAL_STATE`. -/
def initialState : List Word :=
  [0x6a09e667, 0xbb67ae85, 0x3c6ef372, 0xa54ff53a, 0x510e527f, 0x9b05688c, 0x1f83d9ab, 0x5be0cd19]

def rotateRight (value : Int) (bits : Nat) : Int :=
  bitOr (shiftRightZero value bits) (shiftLeft value (32 - bits))

/-- The element of a `Uint32Array`. -/
def element (words : List Word) (i : Nat) : Int := (words.getD i 0).toNat

/-- The assignment to an element, which keeps the low bits. -/
def assign (words : List Word) (i : Nat) (x : Int) : List Word := words.set i (word x)

/-- `DataView.getUint32`. -/
def getUint32 (view : List Byte) (offset : Nat) : Int :=
  (ofBytes ((view.drop offset).take 4)).toNat

/-- `DataView.setUint32`. -/
def setUint32 (view : List Byte) (offset : Nat) (x : Int) : List Byte :=
  overwrite view offset (bigEndian 4 (word x).toNat)

/-- The message with its end mark and its length, in whole blocks. -/
def padMessage (message : List Byte) : List Byte :=
  let bitLength : Int := message.length * 8
  let size := shiftLeft (shiftRight (message.length + 9 + 63) 6) 6
  let padded := List.replicate size.toNat (0 : Byte)
  let padded := overwrite padded 0 message
  let padded := overwrite padded message.length [0x80]
  let view := setUint32 padded (padded.length - 8) (bitLength / 4294967296)
  setUint32 view (view.length - 4) (shiftRightZero bitLength 0)

def scheduleStep (schedule : List Word) (i : Nat) : List Word :=
  let w15 := element schedule (i - 15)
  let w2 := element schedule (i - 2)
  let s0 := bitXor (bitXor (rotateRight w15 7) (rotateRight w15 18)) (shiftRightZero w15 3)
  let s1 := bitXor (bitXor (rotateRight w2 17) (rotateRight w2 19)) (shiftRightZero w2 10)
  assign schedule i (element schedule (i - 16) + s0 + element schedule (i - 7) + s1)

/-- The schedule of the block at an offset, written over that of the block before. -/
def fillSchedule (view : List Byte) (offset : Nat) (schedule : List Word) : List Word :=
  let schedule := (List.range 16).foldl
    (fun schedule i => assign schedule i (getUint32 view (offset + i * 4))) schedule
  (List.range' 16 48).foldl scheduleStep schedule

def roundStep (schedule : List Word) (v : Eight Int) (i : Nat) : Eight Int :=
  let s1 := bitXor (bitXor (rotateRight v.e 6) (rotateRight v.e 11)) (rotateRight v.e 25)
  let choice := bitXor (bitAnd v.e v.f) (bitAnd (bitNot v.e) v.g)
  let t1 := shiftRightZero
    (v.h + s1 + choice + element roundConstants i + element schedule i) 0
  let s0 := bitXor (bitXor (rotateRight v.a 2) (rotateRight v.a 13)) (rotateRight v.a 22)
  let majority := bitXor (bitXor (bitAnd v.a v.b) (bitAnd v.a v.c)) (bitAnd v.b v.c)
  let t2 := shiftRightZero (s0 + majority) 0
  ⟨shiftRightZero (t1 + t2) 0, v.a, v.b, v.c, shiftRightZero (v.d + t1) 0, v.e, v.f, v.g⟩

/-- `let [a, b, c, d, e, f, g, h] = state`. -/
def variablesOf (state : List Word) : Eight Int :=
  ⟨element state 0, element state 1, element state 2, element state 3, element state 4,
    element state 5, element state 6, element state 7⟩

/-- `state[i] += x`. -/
def addTo (i : Nat) (x : Int) (state : List Word) : List Word :=
  assign state i (element state i + x)

def addVariables (state : List Word) (v : Eight Int) : List Word :=
  state |> addTo 0 v.a |> addTo 1 v.b |> addTo 2 v.c |> addTo 3 v.d |> addTo 4 v.e |>
    addTo 5 v.f |> addTo 6 v.g |> addTo 7 v.h

/-- The loop over the blocks. -/
def digestBlocks (view : List Byte) (offset : Nat) (state schedule : List Word) : List Word :=
  if offset < view.length then
    let schedule := fillSchedule view offset schedule
    let v := (List.range 64).foldl (roundStep schedule) (variablesOf state)
    digestBlocks view (offset + 64) (addVariables state v) schedule
  else state
termination_by view.length - offset

def sha256 (message : List Byte) : List Byte :=
  let view := padMessage message
  let state := digestBlocks view 0 initialState (List.replicate 64 0)
  (List.range 8).foldl (fun digest i => setUint32 digest (i * 4) (element state i))
    (List.replicate 32 0)

/-! ## One round -/

theorem word_rotateRight (x : Int) {bits : Nat} (hpos : 0 < bits) (hlt : bits < 32) :
    word (rotateRight x bits) = (word x).rotateRight bits := by
  unfold rotateRight
  rw [word_bitOr, word_shiftRightZero, word_shiftLeft, BitVec.rotateRight_def,
    Nat.mod_eq_of_lt hlt, Nat.mod_eq_of_lt (by omega)]

@[simp] theorem word_shiftRightZero_zero (x : Int) : word (shiftRightZero x 0) = word x := by
  rw [word_shiftRightZero, Nat.zero_mod, BitVec.ushiftRight_zero]

@[simp] theorem word_element (words : List Word) (i : Nat) :
    word (element words i) = words.getD i 0 :=
  word_toNat _

theorem word_roundStep {schedule : List Word} {W : Nat → Word} {i : Nat}
    (hschedule : schedule.getD i 0 = W i) (v : Eight Int) :
    (roundStep schedule v i).map word = Standard.round W (v.map word) i := by
  have hs1 : word (bitXor (bitXor (rotateRight v.e 6) (rotateRight v.e 11)) (rotateRight v.e 25)) =
      Standard.bigSigma1 (word v.e) := by
    unfold Standard.bigSigma1
    rw [word_bitXor, word_bitXor, word_rotateRight _ (by omega) (by omega),
      word_rotateRight _ (by omega) (by omega), word_rotateRight _ (by omega) (by omega)]
  have hs0 : word (bitXor (bitXor (rotateRight v.a 2) (rotateRight v.a 13)) (rotateRight v.a 22)) =
      Standard.bigSigma0 (word v.a) := by
    unfold Standard.bigSigma0
    rw [word_bitXor, word_bitXor, word_rotateRight _ (by omega) (by omega),
      word_rotateRight _ (by omega) (by omega), word_rotateRight _ (by omega) (by omega)]
  have hchoice : word (bitXor (bitAnd v.e v.f) (bitAnd (bitNot v.e) v.g)) =
      Standard.choice (word v.e) (word v.f) (word v.g) := by
    unfold Standard.choice
    rw [word_bitXor, word_bitAnd, word_bitAnd, word_bitNot]
  have hmajority : word (bitXor (bitXor (bitAnd v.a v.b) (bitAnd v.a v.c)) (bitAnd v.b v.c)) =
      Standard.majority (word v.a) (word v.b) (word v.c) := by
    unfold Standard.majority
    rw [word_bitXor, word_bitXor, word_bitAnd, word_bitAnd, word_bitAnd]
  have hconstant : roundConstants.getD i 0 = Standard.constants.getD i 0 := rfl
  unfold roundStep Standard.round Eight.map
  simp only [word_shiftRightZero_zero, word_add, word_element, hs1, hs0, hchoice, hmajority,
    hconstant, hschedule]

/-- The numbers that a round adds are added exactly. -/
theorem roundSums_exact (schedule : List Word) (i : Nat) {x y z : Int}
    (hx : 0 ≤ x ∧ x < 4294967296) (a b : Word) :
    Exact (x + a.toInt + b.toInt + element roundConstants i + element schedule i) ∧
      Exact (a.toInt + b.toInt) ∧ Exact (shiftRightZero y 0 + shiftRightZero z 0) ∧
      Exact (x + shiftRightZero y 0) := by
  have ha := toInt_bounds a
  have hb := toInt_bounds b
  have hy := shiftRightZero_bounds y 0
  have hz := shiftRightZero_bounds z 0
  have hconstant := (roundConstants.getD i 0).isLt
  have helement := (schedule.getD i 0).isLt
  unfold Exact element
  omega

theorem word_rounds {schedule : List Word} {W : Nat → Word}
    (hschedule : ∀ i < 64, schedule.getD i 0 = W i) (v : Eight Int) (n : Nat) (hn : n ≤ 64) :
    ((List.range n).foldl (roundStep schedule) v).map word =
      (List.range n).foldl (Standard.round W) (v.map word) := by
  induction n with
  | zero => rfl
  | succ n ih =>
    rw [List.range_succ, List.foldl_append, List.foldl_append, List.foldl_cons, List.foldl_nil,
      List.foldl_cons, List.foldl_nil, word_roundStep (hschedule n hn), ih (by omega)]

/-! ## The schedule -/

theorem length_assign (words : List Word) (i : Nat) (x : Int) :
    (assign words i x).length = words.length :=
  List.length_set

theorem getD_assign {words : List Word} {i : Nat} (hi : i < words.length) (x : Int) (j : Nat) :
    (assign words i x).getD j 0 = if i = j then word x else words.getD j 0 := by
  unfold assign
  rw [List.getD_eq_getElem?_getD, List.getD_eq_getElem?_getD, List.getElem?_set]
  by_cases h : i = j
  · rw [if_pos h, if_pos (h ▸ hi), if_pos h]
    rfl
  · rw [if_neg h, if_neg h]

theorem word_getUint32 (view : List Byte) (offset : Nat) :
    word (getUint32 view offset) = ofBytes ((view.drop offset).take 4) :=
  word_toNat _

/-- The first words of the schedule are those of the block. -/
theorem schedule_words {view : List Byte} {block : Nat} {schedule : List Word}
    (hlength : schedule.length = 64) (n : Nat) (hn : n ≤ 16) :
    let filled := (List.range n).foldl
      (fun schedule i => assign schedule i (getUint32 view (64 * block + i * 4))) schedule
    filled.length = 64 ∧ ∀ j < n, filled.getD j 0 = Standard.messageWord view block j := by
  induction n with
  | zero => exact ⟨hlength, nofun⟩
  | succ n ih =>
    obtain ⟨hfilled, hwords⟩ := ih (by omega)
    rw [List.range_succ, List.foldl_append, List.foldl_cons, List.foldl_nil]
    refine ⟨(length_assign _ _ _).trans hfilled, fun j hj => ?_⟩
    rw [getD_assign (by omega)]
    by_cases h : n = j
    · subst h
      rw [if_pos rfl, word_getUint32, Nat.mul_comm n 4]
      rfl
    · rw [if_neg h]
      exact hwords j (by omega)

theorem word_scheduleStep {schedule : List Word} {M : Nat → Word} {t : Nat} (h16 : 16 ≤ t)
    (hlt : t < 64) (hlength : schedule.length = 64)
    (hbefore : ∀ j < t, schedule.getD j 0 = Standard.schedule M j) (j : Nat) (hj : j ≤ t) :
    (scheduleStep schedule t).getD j 0 = Standard.schedule M j := by
  unfold scheduleStep
  dsimp only
  rw [getD_assign (by omega)]
  by_cases h : t = j
  · subst h
    have hs0 (x : Int) : word (bitXor (bitXor (rotateRight x 7) (rotateRight x 18))
        (shiftRightZero x 3)) = Standard.smallSigma0 (word x) := by
      unfold Standard.smallSigma0
      rw [word_bitXor, word_bitXor, word_rotateRight _ (by omega) (by omega),
        word_rotateRight _ (by omega) (by omega), word_shiftRightZero]
    have hs1 (x : Int) : word (bitXor (bitXor (rotateRight x 17) (rotateRight x 19))
        (shiftRightZero x 10)) = Standard.smallSigma1 (word x) := by
      unfold Standard.smallSigma1
      rw [word_bitXor, word_bitXor, word_rotateRight _ (by omega) (by omega),
        word_rotateRight _ (by omega) (by omega), word_shiftRightZero]
    rw [if_pos rfl, word_add, word_add, word_add, hs0, hs1, word_element, word_element,
      word_element, word_element, hbefore _ (by omega), hbefore _ (by omega),
      hbefore _ (by omega), hbefore _ (by omega), Standard.schedule_of_ge h16]
    ac_rfl
  · rw [if_neg h]
    exact hbefore j (by omega)

theorem length_scheduleStep (schedule : List Word) (t : Nat) :
    (scheduleStep schedule t).length = schedule.length :=
  length_assign _ _ _

theorem schedule_steps {schedule : List Word} {M : Nat → Word} (hlength : schedule.length = 64)
    (hwords : ∀ j < 16, schedule.getD j 0 = M j) (n : Nat) (hn : n ≤ 48) :
    let filled := (List.range' 16 n).foldl scheduleStep schedule
    filled.length = 64 ∧ ∀ j < 16 + n, filled.getD j 0 = Standard.schedule M j := by
  induction n with
  | zero =>
    refine ⟨hlength, fun j hj => ?_⟩
    rw [Standard.schedule_of_lt hj]
    exact hwords j hj
  | succ n ih =>
    obtain ⟨hfilled, hbefore⟩ := ih (by omega)
    rw [List.range'_concat, List.foldl_append, List.foldl_cons, List.foldl_nil, Nat.one_mul]
    refine ⟨(length_scheduleStep _ _).trans hfilled, fun j hj => ?_⟩
    exact word_scheduleStep (by omega) (by omega) hfilled hbefore j (by omega)

/-- What was in the schedule before does not matter. -/
theorem fillSchedule_spec (view : List Byte) (block : Nat) {schedule : List Word}
    (hlength : schedule.length = 64) :
    (fillSchedule view (64 * block) schedule).length = 64 ∧
      ∀ i < 64, (fillSchedule view (64 * block) schedule).getD i 0 =
        Standard.schedule (Standard.messageWord view block) i := by
  have hfirst : ((List.range 16).foldl (fun schedule i =>
      assign schedule i (getUint32 view (64 * block + i * 4))) schedule).length = 64 ∧
        ∀ j < 16, ((List.range 16).foldl (fun schedule i =>
          assign schedule i (getUint32 view (64 * block + i * 4))) schedule).getD j 0 =
            Standard.messageWord view block j := schedule_words hlength 16 (by omega)
  obtain ⟨hfilled, hwords⟩ := hfirst
  exact schedule_steps hfilled hwords 48 (by omega)

/-! ## The blocks -/

theorem variablesOf_toList (H : Eight Word) : (variablesOf H.toList).map word = H := by
  unfold variablesOf Eight.map
  simp only [word_element]
  rfl

theorem addVariables_toList (H : Eight Word) (v : Eight Int) :
    addVariables H.toList v = (H.add (v.map word)).toList := by
  unfold addVariables addTo assign
  simp only [word_add, word_element]
  rfl

theorem digestBlock (view : List Byte) (block : Nat) (H : Eight Word) {schedule : List Word}
    (hlength : schedule.length = 64) :
    addVariables H.toList ((List.range 64).foldl
        (roundStep (fillSchedule view (64 * block) schedule)) (variablesOf H.toList)) =
      (Standard.compress H (Standard.messageWord view block)).toList := by
  rw [addVariables_toList, word_rounds (fillSchedule_spec view block hlength).2 _ 64 (by omega),
    variablesOf_toList]
  rfl

theorem digestBlocks_eq {view : List Byte} {blocks : Nat} (hview : view.length = 64 * blocks)
    {done : Nat} (hdone : done ≤ blocks) {schedule : List Word} (hlength : schedule.length = 64) :
    digestBlocks view (64 * done) (Standard.hashBlocks view done).toList schedule =
      (Standard.hashBlocks view blocks).toList := by
  induction h : blocks - done generalizing done schedule with
  | zero =>
    obtain rfl : done = blocks := by omega
    rw [digestBlocks, if_neg (by omega)]
  | succ n ih =>
    rw [digestBlocks, if_pos (by omega)]
    dsimp only
    rw [digestBlock view done _ hlength, ← Standard.hashBlocks_succ, ← Nat.mul_succ]
    exact ih (by omega) (fillSchedule_spec view done hlength).1 (by omega)

/-! ## Padding -/

theorem shiftRight_natCast {n : Nat} (h : n < 2147483648) {bits : Nat} (hbits : bits < 32) :
    shiftRight n bits = (n / 2 ^ bits : Nat) := by
  have hword : (word n).toInt = n := by
    unfold word
    exact BitVec.toInt_ofInt_eq_self (by omega) (by omega) (by omega)
  unfold shiftRight
  rw [Nat.mod_eq_of_lt hbits, BitVec.sshiftRight, hword]
  have hshift : (n : Int) >>> bits = (n / 2 ^ bits : Nat) := by
    rw [Int.shiftRight_eq_div_pow]
    norm_cast
  rw [hshift]
  have hle := Nat.div_le_self n (2 ^ bits)
  generalize n / 2 ^ bits = m at hle
  exact BitVec.toInt_ofInt_eq_self (by omega) (by omega) (by omega)

theorem shiftLeft_natCast {n bits : Nat} (h : n * 2 ^ bits < 2147483648) (hbits : bits < 32) :
    shiftLeft n bits = (n * 2 ^ bits : Nat) := by
  have hpos : 0 < 2 ^ bits := Nat.two_pow_pos bits
  have hle : n ≤ n * 2 ^ bits := Nat.le_mul_of_pos_right n hpos
  have hword : (word n).toNat = n := by
    unfold word
    rw [BitVec.ofInt_natCast, BitVec.toNat_ofNat]
    exact Nat.mod_eq_of_lt (by omega)
  have hshift : (word n <<< bits).toNat = n * 2 ^ bits := by
    rw [BitVec.toNat_shiftLeft, hword, Nat.shiftLeft_eq]
    exact Nat.mod_eq_of_lt (by omega)
  unfold shiftLeft
  rw [Nat.mod_eq_of_lt hbits, BitVec.toInt_eq_toNat_of_lt (by omega), hshift]

/-- The size of the buffer: the blocks that the message, its end mark and its length take. -/
theorem size_padded {length : Nat} (h : length < 2147483576) :
    shiftLeft (shiftRight (length + 9 + 63) 6) 6 =
      (length + 9 + Standard.zeros length : Nat) := by
  have hright : shiftRight ((length + 9 + 63 : Nat) : Int) 6 = ((length + 72) / 64 : Nat) :=
    shiftRight_natCast (by omega) (by omega)
  have hleft : shiftLeft (((length + 72) / 64 : Nat) : Int) 6 = ((length + 72) / 64 * 64 : Nat) :=
    shiftLeft_natCast (by omega) (by omega)
  have hsize : (length + 72) / 64 * 64 = length + 9 + Standard.zeros length := by
    unfold Standard.zeros
    omega
  rw [← hsize, ← hleft, ← hright]
  norm_cast

theorem word_natCast {n : Nat} (h : n < 4294967296) : (word n).toNat = n := by
  unfold word
  rw [BitVec.ofInt_natCast, BitVec.toNat_ofNat]
  exact Nat.mod_eq_of_lt h

/-- The two halves of the length are its eight bytes. -/
theorem length_bytes {bits : Nat} (h : bits < 18446744073709551616) :
    bigEndian 4 (word ((bits : Int) / 4294967296)).toNat ++
        bigEndian 4 (word (shiftRightZero bits 0)).toNat = bigEndian 8 bits := by
  have hhigh : (word ((bits : Int) / 4294967296)).toNat = bits / 256 ^ 4 := by
    have hcast : (bits : Int) / 4294967296 = (bits / 4294967296 : Nat) := by norm_cast
    rw [hcast, word_natCast (by omega), show 256 ^ 4 = 4294967296 from rfl]
  have hlow : (word (shiftRightZero bits 0)).toNat = bits % 256 ^ 4 := by
    rw [word_shiftRightZero_zero]
    unfold word
    rw [BitVec.ofInt_natCast, BitVec.toNat_ofNat, show 256 ^ 4 = 2 ^ 32 from rfl]
  rw [hhigh, hlow, bigEndian_mod 4 bits (le_refl 4), ← bigEndian_add]

/-- The two words at the end of the buffer. -/
theorem write_halves (before : List Byte) (high low : Int) :
    let view := setUint32 (before ++ List.replicate 8 0)
      ((before ++ List.replicate 8 (0 : Byte)).length - 8) high
    setUint32 view (view.length - 4) low =
      before ++ (bigEndian 4 (word high).toNat ++ bigEndian 4 (word low).toNat) := by
  have hplace : (before ++ List.replicate 8 (0 : Byte)).length - 8 = before.length := by
    rw [List.length_append, List.length_replicate, Nat.add_sub_cancel]
  have hhigh : setUint32 (before ++ List.replicate 8 0) before.length high =
      (before ++ bigEndian 4 (word high).toNat) ++ (List.replicate 4 0 ++ []) := by
    rw [List.append_nil, List.append_assoc]
    exact overwrite_append before (List.replicate 4 0) (List.replicate 4 0) _ rfl
      (length_bigEndian _ _)
  have hplace' : ((before ++ bigEndian 4 (word high).toNat) ++
      (List.replicate 4 (0 : Byte) ++ [])).length - 4 =
        (before ++ bigEndian 4 (word high).toNat).length := by
    rw [List.length_append, List.append_nil, List.length_replicate, Nat.add_sub_cancel]
  dsimp only
  rw [hplace, hhigh, hplace']
  unfold setUint32
  rw [overwrite_append _ _ _ _ rfl ((length_bigEndian _ _).trans List.length_replicate.symm),
    List.append_nil, List.append_assoc]

theorem padMessage_eq {message : List Byte} (h : message.length < 2147483576) :
    padMessage message = Standard.padded message := by
  have hbuffer : List.replicate (message.length + 9 + Standard.zeros message.length) (0 : Byte) =
      List.replicate message.length 0 ++ (List.replicate 1 0 ++
        (List.replicate (Standard.zeros message.length) 0 ++ List.replicate 8 0)) := by
    rw [← List.replicate_add, ← List.replicate_add, ← List.replicate_add]
    refine congrArg (List.replicate · 0) ?_
    omega
  have hset (rest : List Byte) : overwrite (List.replicate message.length 0 ++ rest) 0 message =
      message ++ rest :=
    overwrite_append [] _ rest message rfl (List.length_replicate ..).symm
  have hmark (rest : List Byte) : overwrite (message ++ (List.replicate 1 0 ++ rest))
      message.length [0x80] = message ++ ([0x80] ++ rest) :=
    overwrite_append message _ rest _ rfl rfl
  have hbefore : message ++ ([0x80] ++ (List.replicate (Standard.zeros message.length) 0 ++
      List.replicate 8 0)) =
        (message ++ (0x80 :: List.replicate (Standard.zeros message.length) 0)) ++
          List.replicate 8 0 := by
    rw [List.append_assoc]
    rfl
  have hbits : (message.length : Int) * 8 = ((8 * message.length : Nat) : Int) := by
    push_cast
    ring
  unfold padMessage
  dsimp only
  rw [size_padded h, Int.toNat_natCast, hbuffer, hset, hmark, hbefore, hbits, write_halves,
    length_bytes (by omega)]
  rfl

/-! ## The digest -/

/-- The words that are written one after the other. -/
theorem write_words (state : List Word) (n : Nat) (hn : n ≤ 8) :
    (List.range n).foldl (fun digest i => setUint32 digest (i * 4) (element state i))
        (List.replicate 32 0) =
      ((List.range n).flatMap fun i => bigEndian 4 (state.getD i 0).toNat) ++
        List.replicate (32 - 4 * n) 0 := by
  induction n with
  | zero => rfl
  | succ n ih =>
    have hlength : ((List.range n).flatMap fun i =>
        bigEndian 4 (state.getD i 0).toNat).length = n * 4 := by
      rw [List.length_flatMap]
      simp
    have hrest : List.replicate (32 - 4 * n) (0 : Byte) =
        List.replicate 4 0 ++ List.replicate (32 - 4 * (n + 1)) 0 := by
      rw [← List.replicate_add]
      refine congrArg (List.replicate · 0) ?_
      omega
    rw [List.range_succ, List.foldl_append, List.foldl_cons, List.foldl_nil, ih (by omega), hrest]
    unfold setUint32
    rw [word_element, overwrite_append _ _ _ _ hlength.symm
      ((length_bigEndian _ _).trans List.length_replicate.symm),
      List.flatMap_append, List.flatMap_singleton, List.append_assoc]

theorem sha256_eq {message : List Byte} (h : message.length < 2147483576) :
    sha256 message = Standard.digest message := by
  have hlength := Standard.length_padded message
  have hblocks : (Standard.padded message).length =
      64 * ((Standard.padded message).length / 64) := by
    have hzeros := Standard.zeros_spec message.length
    omega
  have hstate := digestBlocks_eq hblocks (Nat.zero_le _)
    (List.length_replicate : (List.replicate 64 (0 : Word)).length = 64)
  unfold sha256
  dsimp only
  rw [padMessage_eq h, write_words _ 8 (le_refl 8)]
  have hfirst : initialState = (Standard.hashBlocks (Standard.padded message) 0).toList := rfl
  rw [hfirst, hstate]
  rfl

/-! ## Content ids -/

/-- `byte.toString(16).padStart(2, "0")`. -/
def hexDigits (byte : Byte) : String :=
  let digits := Nat.toDigits 16 byte.toNat
  String.ofList (List.replicate (2 - digits.length) '0' ++ digits)

def toHex (bytes : List Byte) : String := bytes.foldl (fun out byte => out ++ hexDigits byte) ""

/-- The digest of the platform is there in secure contexts only. -/
def sha256Hex (subtle : Option (List Byte → List Byte)) (payload : List Byte) : String :=
  match subtle with
  | some digest => toHex (digest payload)
  | none => toHex (sha256 payload)

/-- The carried digest is SHA-256, so that ids do not tell in which context they were computed. -/
theorem sha256_standard {message : List Byte} (h : message.length < 2 ^ 31 - 72) :
    sha256 message = Standard.digest message ∧
      ∀ subtle : Option (List Byte → List Byte),
        (∀ digest, subtle = some digest → digest message = Standard.digest message) →
          sha256Hex subtle message = toHex (Standard.digest message) := by
  have hdigest := sha256_eq (show message.length < 2147483576 by omega)
  refine ⟨hdigest, fun subtle hsubtle => ?_⟩
  cases subtle with
  | none => exact congrArg toHex hdigest
  | some digest => exact congrArg toHex (hsubtle digest rfl)

theorem sha256_standard_abc :
    sha256 [0x61, 0x62, 0x63] = Standard.digest [0x61, 0x62, 0x63] ∧
      ∀ subtle : Option (List Byte → List Byte),
        (∀ digest, subtle = some digest →
          digest [0x61, 0x62, 0x63] = Standard.digest [0x61, 0x62, 0x63]) →
            sha256Hex subtle [0x61, 0x62, 0x63] =
              toHex (Standard.digest [0x61, 0x62, 0x63]) :=
  sha256_standard (by decide)

end Neoseq.Crypto
