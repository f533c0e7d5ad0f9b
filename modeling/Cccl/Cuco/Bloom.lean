/-
# The fingerprint of a key in a Bloom filter

`bloom_filter_policy.cuh`, and `__contains` with its helpers of `bloom_filter_impl.cuh`.

A key selects a block of the filter by the upper half of its hash (`blockIndex_lt`: there is such a
block), and by the lower half some bits in every word of the block.  How the words of a block are shared
between the threads of a group, and how many of them a thread treats at a time, is a matter of the
layout, and `add` and `contains` have one each.  The words of a slice are generated by code that is
chosen at compile time: directly if a thread works alone, and by a decision tree over the threads of a
group otherwise.  Both come to the same word for the same place in the block (`arrayPattern_eq`,
`arrayPatternOf_eq`), whatever the layout.
-/
import Mathlib.Algebra.Ring.Nat
import Mathlib.Order.Nat

namespace Cccl.Cuco

/-! ## 1. Policies -/

inductive ConditionalAddMode where
  | off
  | on
  deriving DecidableEq

inductive EarlyExitContainsMode where
  | off
  | on
  deriving DecidableEq

inductive WordType where
  | unsignedInt
  | unsignedLongLong
  deriving DecidableEq

/-- `__word_bits`. -/
def WordType.bits : WordType → ℕ
  | .unsignedInt => 32
  | .unsignedLongLong => 64

/-- `__bit_index_width`: the width of `__word_bits - 1`. -/
def WordType.bitIndexWidth : WordType → ℕ
  | .unsignedInt => 5
  | .unsignedLongLong => 6

/-- How many threads work on a key together, and how many adjacent words each takes at a time. -/
structure Layout where
  horizontal : ℕ
  vertical : ℕ

/-- The layout divides the words of a block. -/
structure Layout.Tiles (L : Layout) (wordsPerBlock : ℕ) : Prop where
  horizontal_pos : 0 < L.horizontal
  vertical_pos : 0 < L.vertical
  mod_eq : wordsPerBlock % (L.horizontal * L.vertical) = 0

def maxSalts : ℕ := 64

def salts : List (BitVec 32) := [
  0x47B6137B, 0x44974D91, 0x8824AD5B, 0xA2B7289D, 0x705495C7, 0x2DF1424B, 0x9EFC4947, 0x5C6BFB31,
  0xB24BCDFF, 0xB6843D6D, 0x6DB04543, 0x3A12EFDD, 0xB0DDD463, 0x8D22F6E7, 0xB82F1E53, 0x7DB9F86B,
  0xC7AFE639, 0xFB135CD7, 0x693256E1, 0x9466D871, 0x23D3D02F, 0x6461D049, 0x66A91621, 0xBAA3006F,
  0x52FB8D99, 0x3EA88B4F, 0x0F470CFD, 0xB1DB79A5, 0x9809FCD1, 0xBCED4445, 0x2EB7C737, 0x2CEA6803,
  0x156F1955, 0x8813C027, 0xA26819F9, 0x4C3B57BD, 0x7DF94487, 0xB975E769, 0xB8F20CB5, 0x5C9E2E77,
  0x5FB1735F, 0x3A6F759B, 0x3C090923, 0xFCED424D, 0xA187A6A9, 0x6F070A41, 0x2C85233B, 0x7E62258B,
  0x2771EF17, 0x13BBF093, 0x4FF059E5, 0xE3CE3D0F, 0xF1B4789F, 0x9FBB6173, 0x6A320CF5, 0x1BE2C481,
  0x7BA8222B, 0x6FD619B3, 0x7B1BBF0D, 0x8B8993AD, 0x448ECA95, 0x82AB09D9, 0x2CE53909, 0x4F548685]

/-- `__bloom_filter_policy`: its parameters, and what its assertions require of them. -/
structure BloomPolicy (K : Type*) where
  hash : K → BitVec 64
  wordType : WordType
  wordsPerBlock : ℕ
  patternBits : ℕ
  addLayout : Layout
  containsLayout : Layout
  conditionalAdd : ConditionalAddMode
  earlyExitContains : EarlyExitContainsMode
  wordsPerBlock_powerOfTwo : ∃ k, wordsPerBlock = 2 ^ k
  wordsPerBlock_le : wordsPerBlock ≤ 32
  minPatternBits_le : wordsPerBlock ≤ patternBits
  le_maxPatternBits : patternBits ≤ min (wordType.bits * wordsPerBlock) maxSalts
  addLayout_tiles : addLayout.Tiles wordsPerBlock
  containsLayout_tiles : containsLayout.Tiles wordsPerBlock

/-- The upper and the lower half of a hash. -/
def splitHash (hash : BitVec 64) : BitVec 32 × BitVec 32 :=
  ((hash >>> 32).setWidth 32, hash.setWidth 32)

/-- The block of a key, from the upper half of its hash. -/
def blockIndex (upperHash : BitVec 32) (numBlocks : BitVec 64) : BitVec 32 :=
  ((upperHash.setWidth 64 * numBlocks) >>> 32).setWidth 32

/-- **There is such a block**, however many there are. -/
theorem blockIndex_lt (upperHash : BitVec 32) {numBlocks : BitVec 64} (hpos : 0 < numBlocks.toNat) :
    (blockIndex upperHash numBlocks).toNat < numBlocks.toNat := by
  have hvalue : (blockIndex upperHash numBlocks).toNat =
      upperHash.toNat * numBlocks.toNat % 2 ^ 64 / 2 ^ 32 % 2 ^ 32 := by
    simp [blockIndex, Nat.shiftRight_eq_div_pow]
  rw [hvalue]
  rcases Nat.lt_or_ge numBlocks.toNat (2 ^ 32) with hlt | hge
  · -- the product does not wrap
    have hproduct : upperHash.toNat * numBlocks.toNat < 2 ^ 32 * numBlocks.toNat :=
      Nat.mul_lt_mul_of_pos_right upperHash.isLt hpos
    refine (Nat.mod_le _ _).trans_lt (Nat.div_lt_of_lt_mul ?_)
    exact (Nat.mod_le _ _).trans_lt hproduct
  · exact (Nat.mod_lt _ (by decide)).trans_le hge

/-! ## 2. Patterns -/

namespace BloomPolicy

variable {K : Type*} (P : BloomPolicy K)

/-- A word of the filter. -/
abbrev Word : Type := BitVec P.wordType.bits

def bitsPerWord : ℕ := P.patternBits / P.wordsPerBlock

def extraWords : ℕ := P.patternBits % P.wordsPerBlock

/-- `__salt_start` of a word of the block; that of the next word is its `__salt_end`. -/
def saltStart (wordIndex : ℕ) : ℕ := wordIndex * P.bitsPerWord + min wordIndex P.extraWords

/-- The bit that a salt selects. -/
def bitIndex (hash : BitVec 32) (saltIndex : ℕ) : BitVec 32 :=
  (salts.getD saltIndex 0 * hash) >>> (32 - P.wordType.bitIndexWidth)

/-- `__set_bits`, with `n` salts to go. -/
def setBits (hash : BitVec 32) (arrayIndex : ℕ) : ℕ → ℕ → (ℕ → P.Word) → ℕ → P.Word
  | 0, _, array => array
  | n + 1, saltIndex, array =>
    setBits hash arrayIndex n (saltIndex + 1)
      (Function.update array arrayIndex
        (array arrayIndex ||| 1 <<< (P.bitIndex hash saltIndex).toNat))

/-- `__set_words`, with `n` words to go. -/
def setWords (hash : BitVec 32) : ℕ → ℕ → ℕ → (ℕ → P.Word) → ℕ → P.Word
  | 0, _, _, array => array
  | n + 1, wordIndex, arrayIndex, array =>
    setWords hash n (wordIndex + 1) (arrayIndex + 1)
      (P.setBits hash arrayIndex (P.saltStart (wordIndex + 1) - P.saltStart wordIndex)
        (P.saltStart wordIndex) array)

/-- `__thread_dispatch`: the thread is looked for between two bounds. -/
def threadDispatch (vertical : ℕ) (hash : BitVec 32) (threadIndex : ℕ) (array : ℕ → P.Word)
    (lowerBound upperBound : ℕ) : ℕ → P.Word :=
  if upperBound ≤ lowerBound + 1 then P.setWords hash vertical (lowerBound * vertical) 0 array
  else if threadIndex < (lowerBound + upperBound) / 2 then
    threadDispatch vertical hash threadIndex array lowerBound ((lowerBound + upperBound) / 2)
  else threadDispatch vertical hash threadIndex array ((lowerBound + upperBound) / 2) upperBound
termination_by upperBound - lowerBound

/-- `array_pattern` of a thread that works alone. -/
def arrayPattern (loopIndex vertical : ℕ) (hash : BitVec 32) : ℕ → P.Word :=
  P.setWords hash vertical (vertical * loopIndex) 0 fun _ => 0#_

/-- `array_pattern` of a thread of a group. -/
def arrayPatternOf (loopIndex horizontal vertical : ℕ) (hash : BitVec 32) (threadIndex : ℕ) :
    ℕ → P.Word :=
  let lowerBound := loopIndex * horizontal
  let upperBound := lowerBound + horizontal
  if P.wordsPerBlock / (horizontal * vertical) = 1 then
    P.threadDispatch vertical hash threadIndex (fun _ => 0#_) lowerBound upperBound
  else
    P.threadDispatch vertical hash (loopIndex * horizontal + threadIndex) (fun _ => 0#_) lowerBound
      upperBound

/-- The bits of `n` salts together. -/
def saltBits (hash : BitVec 32) : ℕ → ℕ → P.Word
  | 0, _ => 0#_
  | n + 1, saltIndex =>
    1 <<< (P.bitIndex hash saltIndex).toNat ||| saltBits hash n (saltIndex + 1)

/-- The bits of a word of the block, which depend on the place of the word only. -/
def wordPattern (hash : BitVec 32) (wordIndex : ℕ) : P.Word :=
  P.saltBits hash (P.saltStart (wordIndex + 1) - P.saltStart wordIndex) (P.saltStart wordIndex)

/-! ## 3. One pattern for all layouts -/

theorem setBits_eq (hash : BitVec 32) (arrayIndex : ℕ) :
    ∀ n saltIndex (array : ℕ → P.Word), P.setBits hash arrayIndex n saltIndex array =
      Function.update array arrayIndex (array arrayIndex ||| P.saltBits hash n saltIndex)
  | 0, saltIndex, array => by simp [setBits, saltBits]
  | n + 1, saltIndex, array => by
    rw [setBits, setBits_eq hash arrayIndex n, Function.update_idem, Function.update_self, saltBits,
      BitVec.or_assoc]

theorem setWords_of_lt (hash : BitVec 32) :
    ∀ n wordIndex arrayIndex (array : ℕ → P.Word) {k}, k < arrayIndex →
      P.setWords hash n wordIndex arrayIndex array k = array k
  | 0, _, _, _, _, _ => rfl
  | n + 1, wordIndex, arrayIndex, array, k, hk => by
    rw [setWords, setWords_of_lt hash n _ _ _ (by omega), setBits_eq,
      Function.update_of_ne (by omega)]

theorem setWords_eq (hash : BitVec 32) :
    ∀ n wordIndex arrayIndex (array : ℕ → P.Word) {i}, i < n →
      P.setWords hash n wordIndex arrayIndex array (arrayIndex + i) =
        array (arrayIndex + i) ||| P.wordPattern hash (wordIndex + i)
  | n + 1, wordIndex, arrayIndex, array, 0, _ => by
    rw [setWords, setWords_of_lt P hash n _ _ _ (by omega), setBits_eq]
    simp only [Nat.add_zero, Function.update_self, wordPattern]
  | n + 1, wordIndex, arrayIndex, array, i + 1, hi => by
    have hindex : arrayIndex + (i + 1) = arrayIndex + 1 + i := by omega
    have hword : wordIndex + (i + 1) = wordIndex + 1 + i := by omega
    rw [setWords, hindex, hword, setWords_eq hash n _ _ _ (by omega), setBits_eq,
      Function.update_of_ne (by omega)]

theorem threadDispatch_eq (vertical : ℕ) (hash : BitVec 32) (threadIndex : ℕ)
    (array : ℕ → P.Word) (lowerBound upperBound : ℕ) (hlower : lowerBound ≤ threadIndex)
    (hupper : threadIndex < upperBound) :
    P.threadDispatch vertical hash threadIndex array lowerBound upperBound =
      P.setWords hash vertical (threadIndex * vertical) 0 array := by
  fun_induction threadDispatch P vertical hash threadIndex array lowerBound upperBound with
  | case1 lowerBound upperBound hbase =>
    obtain rfl : lowerBound = threadIndex := by omega
    rfl
  | case2 lowerBound upperBound hbase hmid ih => exact ih hlower hmid
  | case3 lowerBound upperBound hbase hmid ih => exact ih (by omega) hupper

/-- **The pattern of a thread that works alone.** -/
theorem arrayPattern_eq (loopIndex : ℕ) {vertical i : ℕ} (hash : BitVec 32) (hi : i < vertical) :
    P.arrayPattern loopIndex vertical hash i = P.wordPattern hash (loopIndex * vertical + i) := by
  have h := P.setWords_eq hash vertical (vertical * loopIndex) 0 (fun _ => 0#_) hi
  simp only [Nat.zero_add, BitVec.zero_or] at h
  rw [arrayPattern, h, Nat.mul_comm]

/-- **The pattern of a thread of a group.** -/
theorem arrayPatternOf_eq {loopIndex horizontal vertical threadIndex i : ℕ} (hash : BitVec 32)
    (hloop : loopIndex < P.wordsPerBlock / (horizontal * vertical))
    (hthread : threadIndex < horizontal) (hi : i < vertical) :
    P.arrayPatternOf loopIndex horizontal vertical hash threadIndex i =
      P.wordPattern hash ((loopIndex * horizontal + threadIndex) * vertical + i) := by
  have h := P.setWords_eq hash vertical ((loopIndex * horizontal + threadIndex) * vertical) 0
    (fun _ => 0#_) hi
  simp only [Nat.zero_add, BitVec.zero_or] at h
  unfold arrayPatternOf
  split
  · -- in the first and only iteration the index is that of the thread
    rename_i hone
    obtain rfl : loopIndex = 0 := by omega
    simp only [Nat.zero_mul, Nat.zero_add] at h ⊢
    rw [threadDispatch_eq _ _ _ _ _ _ _ (by omega) (by omega), h]
  · rw [threadDispatch_eq _ _ _ _ _ _ _ (by omega) (by omega), h]

end BloomPolicy

/-! ## 4. Places in a block -/

namespace Layout

/-- How often a thread goes on to its next words. -/
def loopCount (L : Layout) (wordsPerBlock : ℕ) : ℕ := wordsPerBlock / (L.horizontal * L.vertical)

variable {L : Layout} {n : ℕ}

theorem Tiles.loopCount_mul (h : L.Tiles n) :
    L.loopCount n * (L.horizontal * L.vertical) = n :=
  Nat.div_mul_cancel (Nat.dvd_of_mod_eq_zero h.mod_eq)

/-- The words of all threads in all iterations are words of the block. -/
theorem Tiles.word_lt (h : L.Tiles n) {loopIndex threadIndex i : ℕ}
    (hloop : loopIndex < L.loopCount n) (hthread : threadIndex < L.horizontal)
    (hi : i < L.vertical) :
    (loopIndex * L.horizontal + threadIndex) * L.vertical + i < n := by
  have hslice : loopIndex * L.horizontal + threadIndex < L.loopCount n * L.horizontal :=
    calc loopIndex * L.horizontal + threadIndex
        < (loopIndex + 1) * L.horizontal := by rw [Nat.add_one_mul]; omega
      _ ≤ L.loopCount n * L.horizontal := Nat.mul_le_mul_right _ hloop
  calc (loopIndex * L.horizontal + threadIndex) * L.vertical + i
      < (loopIndex * L.horizontal + threadIndex + 1) * L.vertical := by
        rw [Nat.add_one_mul]; omega
    _ ≤ L.loopCount n * L.horizontal * L.vertical := Nat.mul_le_mul_right _ hslice
    _ = n := by rw [Nat.mul_assoc, h.loopCount_mul]

/-- **Every word of a block is the word of a thread in an iteration.** -/
theorem Tiles.exists_slice (h : L.Tiles n) {wordIndex : ℕ} (hword : wordIndex < n) :
    ∃ loopIndex < L.loopCount n, ∃ threadIndex < L.horizontal, ∃ i < L.vertical,
      wordIndex = (loopIndex * L.horizontal + threadIndex) * L.vertical + i := by
  refine ⟨wordIndex / L.vertical / L.horizontal, ?_, wordIndex / L.vertical % L.horizontal,
    Nat.mod_lt _ h.horizontal_pos, wordIndex % L.vertical, Nat.mod_lt _ h.vertical_pos, ?_⟩
  · rw [Nat.div_div_eq_div_mul, Nat.div_lt_iff_lt_mul (Nat.mul_pos h.vertical_pos h.horizontal_pos),
      Nat.mul_comm L.vertical, h.loopCount_mul]
    exact hword
  · rw [Nat.div_add_mod', Nat.div_add_mod']

end Layout

/-! ## 5. `contains` -/

namespace BloomPolicy

variable {K : Type*} (P : BloomPolicy K) (words : ℕ → P.Word) (block : ℕ) (lowerHash : BitVec 32)

/-- Whether the words from an address on have all bits of the words that are expected there. -/
def matchSlice (address : ℕ) (expected : ℕ → P.Word) : Bool :=
  (List.range P.containsLayout.vertical).all fun i =>
    words (address + i) &&& expected i == expected i

/-- A slice that has missed decides at once, or after the other ones have been compared. -/
def matchRest (isMatch : Bool) (rest : Bool) : Bool :=
  match P.earlyExitContains with
  | .on => if !isMatch then false else rest
  | .off => rest && isMatch

/-- `__compare_pattern`, with `n` iterations to go. -/
def comparePattern : ℕ → ℕ → Bool
  | 0, _ => true
  | n + 1, loopIndex =>
    P.matchRest
      (P.matchSlice words (block * P.wordsPerBlock + loopIndex * P.containsLayout.vertical)
        (P.arrayPattern loopIndex P.containsLayout.vertical lowerHash))
      (comparePattern n (loopIndex + 1))

/-- `__compare_patterns`, with `n` iterations to go. -/
def comparePatterns (threadIndex : ℕ) : ℕ → ℕ → Bool
  | 0, _ => true
  | n + 1, loopIndex =>
    P.matchRest
      (P.matchSlice words
        (block * P.wordsPerBlock +
          loopIndex * P.containsLayout.vertical * P.containsLayout.horizontal +
          threadIndex * P.containsLayout.vertical)
        (P.arrayPatternOf loopIndex P.containsLayout.horizontal P.containsLayout.vertical lowerHash
          threadIndex))
      (comparePatterns threadIndex n (loopIndex + 1))

/-- The block of a key. -/
def blockOf (numBlocks : BitVec 64) (key : K) : ℕ :=
  (blockIndex (splitHash (P.hash key)).1 numBlocks).toNat

/-- What the pattern of a key is generated from. -/
def lowerHashOf (key : K) : BitVec 32 := (splitHash (P.hash key)).2

def containsLoopCount : ℕ := P.containsLayout.loopCount P.wordsPerBlock

/-- `__compare_patterns` of one thread of a group for a key. -/
def containsPart (numBlocks : BitVec 64) (key : K) (threadIndex : ℕ) : Bool :=
  P.comparePatterns words (P.blockOf numBlocks key) (P.lowerHashOf key) threadIndex
    P.containsLoopCount 0

/-- `__contains` of a single thread. -/
def contains (numBlocks : BitVec 64) (key : K) : Bool :=
  if P.containsLayout.horizontal = 1 then
    P.comparePattern words (P.blockOf numBlocks key) (P.lowerHashOf key) P.containsLoopCount 0
  else
    (List.range P.containsLayout.horizontal).foldl
      (fun result threadIndex => result && P.containsPart words numBlocks key threadIndex) true

/-- `__contains` of a group. -/
def containsGroup (numBlocks : BitVec 64) (tileSize : ℕ) (key : K) : Bool :=
  if P.containsLayout.horizontal = 1 ∨ tileSize ≠ P.containsLayout.horizontal then
    P.contains words numBlocks key
  else (List.range tileSize).all (P.containsPart words numBlocks key)

/-- `__contains_coop`: what the thread with this rank returns.  The threads without a key, if there are
any, only help the others. -/
def containsCoop (numBlocks : BitVec 64) (members : ℕ → Option K) (rank : ℕ) : Bool :=
  (List.range P.containsLayout.horizontal).foldl
    (fun out i =>
      match members i with
      | none => out
      | some key =>
        let result := (List.range P.containsLayout.horizontal).all
          (P.containsPart words numBlocks key)
        if i = rank then result else out) false

/-! ## 6. What `contains` finds -/

/-- The bits of the pattern are set in a word of the block. -/
def HasWord (wordIndex : ℕ) : Prop :=
  words (block * P.wordsPerBlock + wordIndex) &&& P.wordPattern lowerHash wordIndex =
    P.wordPattern lowerHash wordIndex

/-- The fingerprint is there. -/
def HasPattern : Prop :=
  ∀ wordIndex < P.wordsPerBlock, P.HasWord words block lowerHash wordIndex

theorem matchRest_eq (isMatch rest : Bool) : P.matchRest isMatch rest = (isMatch && rest) := by
  unfold matchRest
  cases P.earlyExitContains <;> cases isMatch <;> cases rest <;> rfl

theorem comparePattern_eq_all : ∀ n loopIndex,
    P.comparePattern words block lowerHash n loopIndex = (List.range' loopIndex n).all fun l =>
      P.matchSlice words (block * P.wordsPerBlock + l * P.containsLayout.vertical)
        (P.arrayPattern l P.containsLayout.vertical lowerHash)
  | 0, _ => rfl
  | n + 1, loopIndex => by
    rw [comparePattern, matchRest_eq, comparePattern_eq_all n, List.range'_succ, List.all_cons]

theorem comparePatterns_eq_all (threadIndex : ℕ) : ∀ n loopIndex,
    P.comparePatterns words block lowerHash threadIndex n loopIndex =
      (List.range' loopIndex n).all fun l =>
        P.matchSlice words
          (block * P.wordsPerBlock + l * P.containsLayout.vertical * P.containsLayout.horizontal +
            threadIndex * P.containsLayout.vertical)
          (P.arrayPatternOf l P.containsLayout.horizontal P.containsLayout.vertical lowerHash
            threadIndex)
  | 0, _ => rfl
  | n + 1, loopIndex => by
    rw [comparePatterns, matchRest_eq, comparePatterns_eq_all threadIndex n, List.range'_succ,
      List.all_cons]

variable {P words block lowerHash}

theorem matchSlice_iff {first : ℕ} {expected : ℕ → P.Word}
    (hexpected : ∀ i < P.containsLayout.vertical,
      expected i = P.wordPattern lowerHash (first + i)) :
    P.matchSlice words (block * P.wordsPerBlock + first) expected = true ↔
      ∀ i < P.containsLayout.vertical, P.HasWord words block lowerHash (first + i) := by
  simp only [matchSlice, List.all_eq_true, List.mem_range, beq_iff_eq]
  refine forall_congr' fun i => forall_congr' fun hi => ?_
  rw [hexpected i hi, HasWord, Nat.add_assoc]

variable {numBlocks : BitVec 64} {key : K}

theorem containsPart_iff {threadIndex : ℕ} (hthread : threadIndex < P.containsLayout.horizontal) :
    P.containsPart words numBlocks key threadIndex = true ↔
      ∀ loopIndex < P.containsLoopCount, ∀ i < P.containsLayout.vertical,
        P.HasWord words (P.blockOf numBlocks key) (P.lowerHashOf key)
          ((loopIndex * P.containsLayout.horizontal + threadIndex) * P.containsLayout.vertical +
            i) := by
  rw [containsPart, comparePatterns_eq_all]
  simp only [List.all_eq_true, List.mem_range'_1, Nat.zero_add, Nat.zero_le, true_and]
  refine forall_congr' fun loopIndex => forall_congr' fun hloop => ?_
  have hfirst : loopIndex * P.containsLayout.vertical * P.containsLayout.horizontal +
      threadIndex * P.containsLayout.vertical =
      (loopIndex * P.containsLayout.horizontal + threadIndex) * P.containsLayout.vertical := by
    rw [Nat.add_mul, Nat.mul_right_comm]
  rw [Nat.add_assoc, hfirst]
  exact matchSlice_iff fun i hi => P.arrayPatternOf_eq _ hloop hthread hi

theorem containsPart_all_iff :
    (∀ threadIndex < P.containsLayout.horizontal,
      P.containsPart words numBlocks key threadIndex = true) ↔
      P.HasPattern words (P.blockOf numBlocks key) (P.lowerHashOf key) := by
  constructor
  · intro h wordIndex hword
    obtain ⟨loopIndex, hloop, threadIndex, hthread, i, hi, rfl⟩ :=
      P.containsLayout_tiles.exists_slice hword
    exact (containsPart_iff hthread).mp (h threadIndex hthread) loopIndex hloop i hi
  · intro h threadIndex hthread
    rw [containsPart_iff hthread]
    intro loopIndex hloop i hi
    exact h _ (P.containsLayout_tiles.word_lt hloop hthread hi)

theorem foldl_and_eq_all {α : Type*} (f : α → Bool) :
    ∀ (l : List α) (b : Bool), l.foldl (fun result a => result && f a) b = (b && l.all f)
  | [], b => by simp
  | a :: l, b => by rw [List.foldl_cons, foldl_and_eq_all f l, List.all_cons, Bool.and_assoc]

/-- **A single thread returns `true` if and only if the fingerprint is there.** -/
theorem contains_iff : P.contains words numBlocks key = true ↔
    P.HasPattern words (P.blockOf numBlocks key) (P.lowerHashOf key) := by
  unfold contains
  split
  · rename_i hone
    rw [comparePattern_eq_all]
    simp only [List.all_eq_true, List.mem_range'_1, Nat.zero_add, Nat.zero_le, true_and]
    have hslice : ∀ loopIndex, P.matchSlice words
        (P.blockOf numBlocks key * P.wordsPerBlock + loopIndex * P.containsLayout.vertical)
        (P.arrayPattern loopIndex P.containsLayout.vertical (P.lowerHashOf key)) = true ↔
        ∀ i < P.containsLayout.vertical, P.HasWord words (P.blockOf numBlocks key)
          (P.lowerHashOf key) (loopIndex * P.containsLayout.vertical + i) :=
      fun loopIndex => matchSlice_iff fun i hi => P.arrayPattern_eq _ _ hi
    simp only [hslice]
    constructor
    · intro h wordIndex hword
      obtain ⟨loopIndex, hloop, threadIndex, hthread, i, hi, rfl⟩ :=
        P.containsLayout_tiles.exists_slice hword
      rw [hone] at hthread ⊢
      obtain rfl : threadIndex = 0 := by omega
      rw [Nat.mul_one, Nat.add_zero]
      exact h loopIndex hloop i hi
    · intro h loopIndex hloop i hi
      have hlt := P.containsLayout_tiles.word_lt hloop P.containsLayout_tiles.horizontal_pos hi
      rw [hone, Nat.mul_one, Nat.add_zero] at hlt
      exact h _ hlt
  · rw [foldl_and_eq_all, Bool.true_and, List.all_eq_true]
    simp only [List.mem_range]
    exact containsPart_all_iff

/-- **A group returns `true` if and only if the fingerprint is there.** -/
theorem containsGroup_iff {tileSize : ℕ} : P.containsGroup words numBlocks tileSize key = true ↔
    P.HasPattern words (P.blockOf numBlocks key) (P.lowerHashOf key) := by
  unfold containsGroup
  split
  · exact contains_iff
  · rename_i hsize
    rw [not_or, not_not] at hsize
    rw [hsize.2]
    simp only [List.all_eq_true, List.mem_range]
    exact containsPart_all_iff

theorem foldl_range_at {α : Type*} {f : α → ℕ → α} (rank : ℕ) (value : α)
    (hat : ∀ out, f out rank = value) (hother : ∀ out i, i ≠ rank → f out i = out) (out : α) :
    ∀ n, (List.range n).foldl f out = if rank < n then value else out
  | 0 => rfl
  | n + 1 => by
    rw [List.range_succ, List.foldl_append, foldl_range_at rank value hat hother out n, List.foldl_cons,
      List.foldl_nil]
    rcases lt_trichotomy rank n with hlt | rfl | hgt
    · rw [if_pos hlt, if_pos (by omega), hother _ _ hlt.ne']
    · rw [hat, if_pos (by omega)]
    · rw [if_neg (by omega), if_neg (by omega), hother _ _ hgt.ne]

/-- **Each thread of a group returns `true` if and only if the fingerprint of its key is there.** -/
theorem containsCoop_iff {members : ℕ → Option K} {rank : ℕ}
    (hrank : rank < P.containsLayout.horizontal) (hkey : members rank = some key) :
    P.containsCoop words numBlocks members rank = true ↔
      P.HasPattern words (P.blockOf numBlocks key) (P.lowerHashOf key) := by
  have hvalue : P.containsCoop words numBlocks members rank =
      (List.range P.containsLayout.horizontal).all (P.containsPart words numBlocks key) := by
    rw [containsCoop, foldl_range_at rank
      ((List.range P.containsLayout.horizontal).all (P.containsPart words numBlocks key)),
      if_pos hrank]
    · intro out
      simp only [hkey, if_true]
    · intro out i hi
      split
      · rfl
      · exact if_neg hi
  rw [hvalue, ← containsPart_all_iff]
  simp only [List.all_eq_true, List.mem_range]

end BloomPolicy

end Cccl.Cuco
