/-
# Sorting keys by their fields

A field's bits, as they are converted for the sort, are ordered as its values are: integers by their values, and
floating-point numbers by their magnitudes with a sign, among which there is one zero (`keyBits_lt_iff`).  One behind the
other, the bits of all fields are ordered lexicographically by the values of the fields (`orderedBits_lt_iff`).  So passes
over ranges of bits, one behind the other, leave a stable sort by the fields (`digit_eq_iff`).
-/
import Mathlib.Data.Nat.Bitwise
import Cccl.RadixSort.DigitExtractor

namespace Cccl.RadixSort

open DigitSort StableSort

/-! ## 1. Values of fields -/

/-- The magnitude of a floating-point number from its exponent and fraction bits, as a multiple of half of the least
positive one. -/
def magnitude (fractionBits field : ℕ) : ℕ :=
  let exponent := field / 2 ^ fractionBits
  let fraction := field % 2 ^ fractionBits
  if exponent = 0 then fraction * 2 else (2 ^ fractionBits + fraction) * 2 ^ exponent

/-- The value of a field: a floating-point number that is not NaN has the sign of its highest bit. -/
def FieldType.value (T : FieldType) (field : ℕ) : ℤ :=
  match T.category with
  | .unsignedInteger => field
  | .signedInteger => if field < T.highBit then field else field - 2 ^ T.bits
  | .floatingPoint fractionBits =>
    if field < T.highBit then magnitude fractionBits field else -magnitude fractionBits (field - T.highBit)

/-- The bits that the sort takes for a field. -/
def FieldType.keyBits (T : FieldType) (field : ℕ) : ℕ := T.processFloatMinusZero (T.twiddleIn field)

variable {T : FieldType} {types : List FieldType} {a b : ℕ}

/-! ## 2. A field's bits as a number -/

theorem two_pow_bits (T : FieldType) : 2 ^ T.bits = 2 * T.highBit := by
  rw [FieldType.highBit, ← Nat.pow_succ']
  congr 1
  have := T.bits_pos
  omega

theorem xor_two_pow_of_lt {k : ℕ} (h : a < 2 ^ k) : a ^^^ 2 ^ k = a + 2 ^ k := by
  have hor := Nat.two_pow_add_eq_or_of_lt h 1
  rw [Nat.mul_one] at hor
  rw [Nat.add_comm, hor]
  refine Nat.eq_of_testBit_eq fun j => ?_
  rw [Nat.testBit_xor, Nat.testBit_or, Nat.testBit_two_pow]
  by_cases hj : k = j
  · subst hj
    rw [Nat.testBit_lt_two_pow h, decide_eq_true rfl]
    rfl
  · rw [decide_eq_false hj, Bool.xor_false, Bool.false_or]

theorem xor_two_pow_of_le {k : ℕ} (hle : 2 ^ k ≤ a) (hlt : a < 2 * 2 ^ k) : a ^^^ 2 ^ k = a - 2 ^ k := by
  obtain ⟨c, rfl⟩ := Nat.exists_eq_add_of_le' hle
  have hc : c < 2 ^ k := by omega
  rw [← xor_two_pow_of_lt hc, Nat.xor_assoc, Nat.xor_self, Nat.xor_zero, xor_two_pow_of_lt hc, Nat.add_sub_cancel]

theorem xor_ones {n : ℕ} (h : a < 2 ^ n) : a ^^^ (2 ^ n - 1) = 2 ^ n - 1 - a := by
  rw [Nat.sub_sub, Nat.add_comm 1]
  refine Nat.eq_of_testBit_eq fun j => ?_
  rw [Nat.testBit_xor, Nat.testBit_two_pow_sub_one, Nat.testBit_two_pow_sub_succ h]
  by_cases hj : j < n
  · rw [decide_eq_true hj, Bool.xor_true, Bool.true_and]
  · have hsmall : a < 2 ^ j := h.trans_le (Nat.pow_le_pow_right (by decide) (Nat.not_lt.mp hj))
    rw [decide_eq_false hj, Bool.xor_false, Bool.false_and, Nat.testBit_lt_two_pow hsmall]

theorem and_highBit (h : a < 2 ^ T.bits) : a &&& T.highBit ≠ 0 ↔ T.highBit ≤ a := by
  have hdouble := two_pow_bits T
  have hpos : 0 < T.highBit := Nat.two_pow_pos _
  rw [FieldType.highBit] at hdouble hpos ⊢
  rw [Nat.and_two_pow, Nat.testBit_eq_decide_div_mod_eq]
  rcases Nat.lt_or_ge a (2 ^ (T.bits - 1)) with hlt | hge
  · rw [Nat.div_eq_of_lt hlt]
    exact iff_of_false (by simp) (Nat.not_le.mpr hlt)
  · have hdiv : a / 2 ^ (T.bits - 1) = 1 := Nat.div_eq_of_lt_le (by omega) (by omega)
    rw [hdiv]
    exact iff_of_true (by simp) hge

theorem twiddleIn_eq (h : a < 2 ^ T.bits) : T.twiddleIn a =
    match T.category with
    | .unsignedInteger => a
    | .signedInteger => if a < T.highBit then a + T.highBit else a - T.highBit
    | .floatingPoint _ => if a < T.highBit then a + T.highBit else 2 * T.highBit - 1 - a := by
  have hdouble := two_pow_bits T
  have hlow : a < T.highBit → a ^^^ T.highBit = a + T.highBit := fun hlt => xor_two_pow_of_lt hlt
  have hhigh : T.highBit ≤ a → a ^^^ T.highBit = a - T.highBit := fun hge => xor_two_pow_of_le hge (hdouble ▸ h)
  rw [FieldType.twiddleIn]
  cases hcategory : T.category with
  | unsignedInteger => rfl
  | signedInteger =>
    dsimp only
    split
    · rename_i hlt
      exact hlow hlt
    · rename_i hge
      exact hhigh (Nat.not_lt.mp hge)
  | floatingPoint fractionBits =>
    have hand := and_highBit h
    dsimp only
    split
    · rename_i hset
      rw [if_neg (Nat.not_lt.mpr (hand.mp hset)), xor_ones h, hdouble]
    · rename_i hclear
      have hlt := Nat.not_le.mp fun hge => hclear (hand.mpr hge)
      rw [if_pos hlt, hlow hlt]

/-- **The bits the sort takes for a field**, as a number: those of a negative zero are those of the zero. -/
theorem keyBits_eq (h : a < 2 ^ T.bits) : T.keyBits a =
    match T.category with
    | .unsignedInteger => a
    | .signedInteger => if a < T.highBit then a + T.highBit else a - T.highBit
    | .floatingPoint _ =>
      if a < T.highBit then a + T.highBit else if a = T.highBit then T.highBit else 2 * T.highBit - 1 - a := by
  have hdouble := two_pow_bits T
  have hpos : 0 < T.highBit := Nat.two_pow_pos _
  have htwiddle := twiddleIn_eq h
  have hminus := twiddleIn_eq (T := T) (highBit_lt T)
  have hzero := twiddleIn_eq (T := T) (Nat.two_pow_pos T.bits)
  rw [FieldType.keyBits, FieldType.processFloatMinusZero]
  cases hcategory : T.category with
  | unsignedInteger =>
    rw [hcategory] at htwiddle
    exact htwiddle
  | signedInteger =>
    rw [hcategory] at htwiddle
    exact htwiddle
  | floatingPoint fractionBits =>
    rw [hcategory] at htwiddle hminus hzero
    dsimp only at htwiddle hminus hzero ⊢
    rw [if_neg (Nat.lt_irrefl _)] at hminus
    rw [if_pos hpos, Nat.zero_add] at hzero
    rw [hminus, hzero, htwiddle]
    by_cases hlow : a < T.highBit
    · rw [if_pos hlow, if_pos hlow]
      split <;> omega
    · rw [if_neg hlow, if_neg hlow]
      split <;> split <;> omega

/-! ## 3. The order of a field -/

/-- **Magnitudes** are ordered as their bits are. -/
theorem magnitude_strictMono (fractionBits : ℕ) : StrictMono (magnitude fractionBits) := by
  refine strictMono_nat_of_lt_succ fun field => ?_
  obtain ⟨n, hn⟩ : ∃ n, n = 2 ^ fractionBits := ⟨_, rfl⟩
  have hpos : 0 < n := hn ▸ Nat.two_pow_pos _
  rw [magnitude, magnitude, ← hn]
  have hfraction := Nat.mod_lt field hpos
  have hfield := Nat.div_add_mod field n
  have hscale : ∀ exponent, 0 < 2 ^ exponent := fun exponent => Nat.two_pow_pos exponent
  rcases Nat.lt_or_ge (field % n + 1) n with hwithin | hlast
  · -- the fraction grows
    obtain ⟨hexponent, hnext⟩ : (field + 1) / n = field / n ∧ (field + 1) % n = field % n + 1 := by
      refine (Nat.div_mod_unique hpos).mpr ⟨?_, hwithin⟩
      omega
    rw [hexponent, hnext]
    split
    · omega
    · exact Nat.mul_lt_mul_of_pos_right (by omega) (hscale _)
  · -- the exponent grows, and the fraction starts anew
    obtain ⟨hexponent, hnext⟩ : (field + 1) / n = field / n + 1 ∧ (field + 1) % n = 0 := by
      refine (Nat.div_mod_unique hpos).mpr ⟨?_, hpos⟩
      rw [Nat.mul_succ]
      omega
    rw [hexponent, hnext, if_neg (Nat.succ_ne_zero _), Nat.pow_succ']
    split
    · rename_i hzero
      rw [hzero]
      omega
    · rw [← Nat.mul_assoc]
      exact Nat.mul_lt_mul_of_pos_right (by omega) (hscale _)

/-- **A field is ordered by its bits** as by its value. -/
theorem keyBits_lt_iff (ha : a < 2 ^ T.bits) (hb : b < 2 ^ T.bits) :
    (T.keyBits a < T.keyBits b ↔ T.value a < T.value b) ∧ (T.keyBits a = T.keyBits b ↔ T.value a = T.value b) := by
  have hdouble := two_pow_bits T
  have hpos : 0 < T.highBit := Nat.two_pow_pos _
  have hcast : (2 : ℤ) ^ T.bits = ((2 ^ T.bits : ℕ) : ℤ) := (Nat.cast_pow 2 _).symm
  rw [keyBits_eq ha, keyBits_eq hb, FieldType.value, FieldType.value, hcast]
  cases T.category with
  | unsignedInteger =>
    dsimp only
    omega
  | signedInteger =>
    dsimp only
    split <;> split <;> omega
  | floatingPoint fractionBits =>
    have hmono := magnitude_strictMono fractionBits
    have hzero : magnitude fractionBits 0 = 0 := by
      rw [magnitude, Nat.zero_div, Nat.zero_mod]
      rfl
    dsimp only
    rcases Nat.lt_or_ge a T.highBit with hlowA | hhighA <;> rcases Nat.lt_or_ge b T.highBit with hlowB | hhighB
    · rw [if_pos hlowA, if_pos hlowB, if_pos hlowA, if_pos hlowB]
      have hlt := hmono.lt_iff_lt (a := a) (b := b)
      have heq := hmono.injective.eq_iff (a := a) (b := b)
      omega
    · -- a number that is not negative, and one that is not positive
      have hltA := hmono.lt_iff_lt (a := 0) (b := a)
      have hltB := hmono.lt_iff_lt (a := 0) (b := b - T.highBit)
      rw [if_pos hlowA, if_neg (Nat.not_lt.mpr hhighB), if_pos hlowA, if_neg (Nat.not_lt.mpr hhighB)]
      split <;> omega
    · have hltA := hmono.lt_iff_lt (a := 0) (b := a - T.highBit)
      have hltB := hmono.lt_iff_lt (a := 0) (b := b)
      rw [if_neg (Nat.not_lt.mpr hhighA), if_pos hlowB, if_neg (Nat.not_lt.mpr hhighA), if_pos hlowB]
      split <;> omega
    · have hlt := hmono.lt_iff_lt (a := b - T.highBit) (b := a - T.highBit)
      have heq := hmono.injective.eq_iff (a := a - T.highBit) (b := b - T.highBit)
      rw [if_neg (Nat.not_lt.mpr hhighA), if_neg (Nat.not_lt.mpr hhighB), if_neg (Nat.not_lt.mpr hhighA),
        if_neg (Nat.not_lt.mpr hhighB)]
      split <;> split <;> omega

/-! ## 4. The order of a key -/

/-- Keys are compared field by field. -/
def lexBelow : List FieldType → List ℕ → List ℕ → Bool
  | T :: types, a :: first, b :: second =>
    decide (T.value a < T.value b) || (decide (T.value a = T.value b) && lexBelow types first second)
  | _, _, _ => false

/-- The bits of a key. -/
def orderedBits (types : List FieldType) (fields : List ℕ) : ℕ := concatBits types (toBitOrdered types fields)

variable {fields first second : List ℕ}

theorem toBitOrdered_fits (h : Fits types fields) : Fits types (toBitOrdered types fields) := by
  induction h with
  | nil => exact .nil
  | cons hfield _ ih => exact .cons (twiddleIn_lt hfield) ih

theorem orderedBits_lt (h : Fits types fields) : orderedBits types fields < 2 ^ width types :=
  concatBits_lt (toBitOrdered_fits h)

theorem orderedBits_cons (T : FieldType) (types : List FieldType) (a : ℕ) (fields : List ℕ) :
    orderedBits (T :: types) (a :: fields) = orderedBits types fields + 2 ^ width types * T.keyBits a := rfl

/-- **A key is ordered by its bits** as by its fields. -/
theorem orderedBits_lt_iff (hfirst : Fits types first) (hsecond : Fits types second) :
    orderedBits types first < orderedBits types second ↔ lexBelow types first second = true := by
  induction hfirst generalizing second with
  | nil =>
    cases hsecond
    exact iff_of_false (Nat.lt_irrefl _) Bool.false_ne_true
  | @cons T a types first ha hrest ih =>
    cases hsecond with
    | @cons _ b _ second hb hrest' =>
      obtain ⟨hlt, heq⟩ := keyBits_lt_iff ha hb
      rw [orderedBits_cons, orderedBits_cons, upper_lt_iff (orderedBits_lt hrest) (orderedBits_lt hrest'), hlt, heq,
        ih hrest', lexBelow, Bool.or_eq_true, Bool.and_eq_true, decide_eq_true_iff, decide_eq_true_iff]

/-! ## 5. The passes -/

/-- A key: its fields are numbers of their types. -/
structure Key (types : List FieldType) where
  fields : List ℕ
  fits : Fits types fields

namespace Key

/-- The bits of a key. -/
def bits (key : Key types) : ℕ := orderedBits types key.fields

def below (first second : Key types) : Bool := lexBelow types first.fields second.fields

end Key

/-- A pass: the keys of each digit, in the order in which they have been. -/
def digitPass (types : List FieldType) (bitStart numBits : ℕ) (keys : List (Key types)) : Option (List (Key types)) := do
  let items ← keys.mapM fun key => (digit types bitStart numBits (toBitOrdered types key.fields)).map fun d => (d, key)
  some ((stablePartition Prod.fst (2 ^ numBits) items).map Prod.snd)

/-- Passes over ranges of bits, each from where the one before it ends. -/
def lsdPasses (types : List FieldType) : ℕ → List ℕ → List (Key types) → Option (List (Key types))
  | _, [], keys => some keys
  | bitStart, numBits :: passes, keys => do
    let keys ← digitPass types bitStart numBits keys
    lsdPasses types (bitStart + numBits) passes keys

/-- In each of the passes, no field has more than 30 of the bits. -/
def FewBitsEach (types : List FieldType) : ℕ → List ℕ → Prop
  | _, [] => True
  | bitStart, numBits :: passes => FewBits bitStart numBits types ∧ FewBitsEach types (bitStart + numBits) passes

variable {bitStart numBits : ℕ} {keys input : List (Key types)}

theorem digit_eq (key : Key types) (hnum : numBits ≤ 32) (hend : bitStart + numBits ≤ width types) :
    digit types bitStart numBits (toBitOrdered types key.fields) =
      if FewBits bitStart numBits types then some (bitField bitStart numBits key.bits) else none := by
  have hcopied : min numBits (width types - bitStart) = numBits := by omega
  rw [digit, forEachMember_eq (toBitOrdered_fits key.fits) hnum]
  split
  · rw [Option.map_some, stateBehind, hcopied]
    rfl
  · rfl

/-- **A pass** puts the keys in the order of their digits. -/
theorem digitPass_eq (hnum : numBits ≤ 32) (hend : bitStart + numBits ≤ width types) (hsome : keys ≠ []) :
    digitPass types bitStart numBits keys =
      if FewBits bitStart numBits types then
        some (stablePartition (fun key => bitField bitStart numBits key.bits) (2 ^ numBits) keys)
      else none := by
  rw [digitPass]
  split
  · rename_i hfew
    have hitems : keys.mapM (fun key : Key types =>
        (digit types bitStart numBits (toBitOrdered types key.fields)).map fun d => (d, key)) =
        some (keys.map fun key => (bitField bitStart numBits key.bits, key)) := by
      clear hsome
      induction keys with
      | nil => rfl
      | cons key keys ih =>
        rw [List.mapM_cons, digit_eq key hnum hend, if_pos hfew, ih]
        rfl
    rw [hitems]
    change some _ = some _
    rw [stablePartition_map, List.map_map]
    exact congrArg some (List.map_id _)
  · rename_i hmany
    obtain ⟨key, rest, rfl⟩ := List.exists_cons_of_ne_nil hsome
    rw [List.mapM_cons, digit_eq key hnum hend, if_neg hmany]
    rfl

theorem lsdPasses_cons {next : List (Key types)} {passes : List ℕ} (h : digitPass types bitStart numBits keys = some next) :
    lsdPasses types bitStart (numBits :: passes) keys = lsdPasses types (bitStart + numBits) passes next := by
  change (digitPass types bitStart numBits keys).bind _ = _
  rw [h]
  rfl

theorem lsdPasses_nil : ∀ (passes : List ℕ) (bitStart : ℕ), lsdPasses types bitStart passes [] = some []
  | [], _ => rfl
  | numBits :: passes, bitStart => by
    have hpass : digitPass types bitStart numBits [] = some [] := by
      change some ((stablePartition Prod.fst (2 ^ numBits) []).map Prod.snd) = some []
      rw [List.eq_nil_iff_forall_not_mem.mpr fun a ha => List.not_mem_nil (mem_stablePartition.mp ha).1]
      rfl
    rw [lsdPasses_cons hpass, lsdPasses_nil passes]

/-- **The passes** sort the keys by all bits so far. -/
theorem lsdPasses_spec : ∀ (passes : List ℕ) (bitStart : ℕ) (keys : List (Key types)),
    (∀ numBits ∈ passes, numBits ≤ 32) → bitStart + passes.sum ≤ width types → keys ≠ [] →
    IsStableSort (below fun key => bitField 0 bitStart key.bits) input keys →
    (FewBitsEach types bitStart passes → ∃ sorted, lsdPasses types bitStart passes keys = some sorted ∧
      IsStableSort (below fun key => bitField 0 (bitStart + passes.sum) key.bits) input sorted) ∧
    (¬ FewBitsEach types bitStart passes → lsdPasses types bitStart passes keys = none)
  | [], bitStart, keys, _, _, _, hsorted => ⟨fun _ => ⟨keys, rfl, hsorted⟩, fun hmany => absurd trivial hmany⟩
  | numBits :: passes, bitStart, keys, hnum, hend, hsome, hsorted => by
    rw [List.sum_cons] at hend ⊢
    have hdigit := bitField_lt bitStart numBits
    have hwithin : bitStart + numBits ≤ width types := by omega
    have hpass := digitPass_eq (hnum numBits List.mem_cons_self) hwithin hsome
    by_cases hfew : FewBits bitStart numBits types
    · rw [if_pos hfew] at hpass
      obtain ⟨next, hnext⟩ : ∃ next, next =
        stablePartition (fun key : Key types => bitField bitStart numBits key.bits) (2 ^ numBits) keys := ⟨_, rfl⟩
      rw [← hnext] at hpass
      have hsome' : next ≠ [] := by
        obtain ⟨key, hkey⟩ := List.exists_mem_of_ne_nil keys hsome
        refine List.ne_nil_of_mem (a := key) ?_
        rw [hnext]
        exact mem_stablePartition.mpr ⟨hkey, hdigit _⟩
      have hsorted' : IsStableSort (below fun key => bitField 0 (bitStart + numBits) key.bits) input next := by
        rw [hnext]
        refine stablePartition_isStableSort hsorted (fun key _ => hdigit key.bits) fun first second => ?_
        have hlt := bitField_add_lt 0 bitStart numBits first.bits second.bits
        rwa [Nat.zero_add] at hlt
      obtain ⟨hall, hnone⟩ := lsdPasses_spec passes (bitStart + numBits) next
        (fun n hn => hnum n (List.mem_cons_of_mem _ hn)) (by omega) hsome' hsorted'
      rw [lsdPasses_cons hpass, ← Nat.add_assoc]
      exact ⟨fun heach => hall heach.2, fun hmany => hnone fun heach => hmany ⟨hfew, heach⟩⟩
    · rw [if_neg hfew] at hpass
      refine ⟨fun heach => absurd heach.1 hfew, fun _ => ?_⟩
      change (digitPass types bitStart numBits keys).bind _ = _
      rw [hpass]
      rfl

theorem below_bits (types : List FieldType) :
    (below fun key : Key types => bitField 0 (width types) key.bits) = Key.below := by
  funext first second
  have hfield : ∀ key : Key types, bitField 0 (width types) key.bits = key.bits := fun key => by
    rw [bitField, Nat.pow_zero, Nat.div_one]
    exact Nat.mod_eq_of_lt (orderedBits_lt key.fits)
  rw [below, hfield, hfield, Bool.eq_iff_iff, decide_eq_true_iff]
  exact orderedBits_lt_iff first.fits second.fits

theorem isStableSort_constant (keys : List (Key types)) :
    IsStableSort (below fun key => bitField 0 0 key.bits) keys keys := by
  refine ⟨List.pairwise_of_forall fun first second => ?_, fun _ => rfl⟩
  rw [below_eq_false, bitField, bitField, Nat.pow_zero, Nat.mod_one, Nat.mod_one]

/-- **Digits are the bits of the key, and the passes sort by its fields**, if and only if no field has more than 30 of the
bits of a digit. -/
theorem digit_eq_iff (types : List FieldType) :
    (∀ (key : Key types) (bitStart numBits : ℕ), numBits ≤ 32 → bitStart + numBits ≤ width types →
      (digit types bitStart numBits (toBitOrdered types key.fields) = some (bitField bitStart numBits key.bits) ↔
        FewBits bitStart numBits types)) ∧
    ∀ (keys : List (Key types)) (passes : List ℕ), (∀ numBits ∈ passes, numBits ≤ 32) → passes.sum = width types →
      ((∃ sorted, lsdPasses types 0 passes keys = some sorted ∧ IsStableSort Key.below keys sorted) ↔
        keys = [] ∨ FewBitsEach types 0 passes) := by
  refine ⟨fun key bitStart numBits hnum hend => ?_, fun keys passes hnum hsum => ?_⟩
  · rw [digit_eq key hnum hend]
    split
    · rename_i hfew
      exact iff_of_true rfl hfew
    · rename_i hmany
      exact iff_of_false (Option.some_ne_none _).symm hmany
  · by_cases hsome : keys = []
    · subst hsome
      exact iff_of_true ⟨[], lsdPasses_nil passes 0, IsStableSort.nil⟩ (Or.inl rfl)
    · obtain ⟨hall, hnone⟩ := lsdPasses_spec passes 0 keys hnum (by omega) hsome (isStableSort_constant keys)
      rw [Nat.zero_add, hsum, below_bits] at hall
      refine ⟨fun ⟨sorted, heq, _⟩ => Or.inr (by_contra fun hmany => ?_), fun h => ?_⟩
      · rw [hnone hmany] at heq
        exact Option.some_ne_none _ heq.symm
      · exact hall (h.resolve_left hsome)

/-- A number of 16 bits, of which 10 are the fraction, and a character. -/
def halfAndChar : List FieldType := [⟨.floatingPoint 10, 16, by decide⟩, ⟨.signedInteger, 8, by decide⟩]

/-- Digits of eight bits: of a key with a negative zero, and of a pass over all bits. -/
theorem half_and_char_sorted :
    let zero : Key halfAndChar := ⟨[0x8000, 0xFF], .cons (by decide) (.cons (by decide) .nil)⟩
    let one : Key halfAndChar := ⟨[0x3C00, 0x01], .cons (by decide) (.cons (by decide) .nil)⟩
    digit halfAndChar 4 8 (toBitOrdered halfAndChar zero.fields) = some (bitField 4 8 zero.bits) ∧
      ∃ sorted, lsdPasses halfAndChar 0 [8, 8, 8] [one, zero] = some sorted ∧
        IsStableSort Key.below [one, zero] sorted :=
  ⟨((digit_eq_iff halfAndChar).1 _ 4 8 (by decide) (by decide)).mpr (by decide),
    ((digit_eq_iff halfAndChar).2 _ [8, 8, 8] (by decide) (by decide)).mpr
      (Or.inr ⟨by decide, by decide, by decide, trivial⟩)⟩

/-- A digit of all 32 bits of a field: the mask is `1 << 32`, which an `int` does not have. -/
theorem whole_field_has_no_digit :
    let types : List FieldType := [⟨.unsignedInteger, 32, by decide⟩]
    0 + 32 ≤ width types ∧ digit types 0 32 (toBitOrdered types [5]) = none ∧
      bitField 0 32 (orderedBits types [5]) = 5 := by
  decide

end Cccl.RadixSort
