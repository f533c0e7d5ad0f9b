/-
# A Bloom filter has no false negatives

`__add` and `__add_coop` of `bloom_filter_impl.cuh`.

A thread that adds a key, or its share of a key, sets the bits of one word after the other by an atomic
or, if the policy asks for it after a look at the word whether there is anything to do.  The steps of
all threads may be interleaved in any order.

No step ever clears a bit.  So what a thread has set, or has seen set, stays set (`AddInv.step`); the
threads of a call set the whole fingerprint of their key, which does not depend on the layout
(`mem_addWrites`); and `contains` looks for just that.
-/
import Cccl.Lib.Transition
import Cccl.Cuco.Bloom

namespace Cccl.Cuco

/-! ## 1. Calls -/

namespace BloomPolicy

variable {K : Type*} (P : BloomPolicy K)

/-- A call of `__atomic_or`: the address of a word, and the bits to set there. -/
abbrev Write : Type := ℕ × P.Word

/-- `__add_pattern`, with `n` iterations to go. -/
def addPattern (L : Layout) (block : ℕ) (lowerHash : BitVec 32) : ℕ → ℕ → List P.Write
  | 0, _ => []
  | n + 1, loopIndex =>
    (List.range L.vertical).map (fun i =>
      (block * P.wordsPerBlock + loopIndex * L.vertical + i,
        P.arrayPattern loopIndex L.vertical lowerHash i)) ++
      addPattern L block lowerHash n (loopIndex + 1)

/-- `__add_patterns`, with `n` iterations to go. -/
def addPatterns (L : Layout) (block : ℕ) (lowerHash : BitVec 32) (threadIndex : ℕ) :
    ℕ → ℕ → List P.Write
  | 0, _ => []
  | n + 1, loopIndex =>
    (List.range L.vertical).map (fun i =>
      (block * P.wordsPerBlock + loopIndex * L.vertical * L.horizontal + threadIndex * L.vertical + i,
        P.arrayPatternOf loopIndex L.horizontal L.vertical lowerHash threadIndex i)) ++
      addPatterns L block lowerHash threadIndex n (loopIndex + 1)

/-- `__add` of a single thread with a layout. -/
def addWrites (L : Layout) (block : ℕ) (lowerHash : BitVec 32) : List P.Write :=
  if L.horizontal = 1 then P.addPattern L block lowerHash (L.loopCount P.wordsPerBlock) 0
  else (List.range L.horizontal).flatMap fun threadIndex =>
    P.addPatterns L block lowerHash threadIndex (L.loopCount P.wordsPerBlock) 0

variable (numBlocks : BitVec 64)

/-- `__add` of a single thread. -/
def addKey (key : K) : List P.Write :=
  P.addWrites P.addLayout (P.blockOf numBlocks key) (P.lowerHashOf key)

/-- The share of a thread in adding a key. -/
def addPart (key : K) (threadIndex : ℕ) : List P.Write :=
  P.addPatterns P.addLayout (P.blockOf numBlocks key) (P.lowerHashOf key) threadIndex
    (P.addLayout.loopCount P.wordsPerBlock) 0

end BloomPolicy

/-- `__add` of a single thread, `__add` of a group of some size, and `__add_coop` of a group whose
threads have a key each, or none. -/
inductive AddCall (K : Type*) where
  | thread (key : K)
  | group (tileSize : ℕ) (key : K)
  | coop (members : ℕ → Option K)

namespace BloomPolicy

variable {K : Type*} (P : BloomPolicy K) (numBlocks : BitVec 64)

/-- The keys that a call adds. -/
def Adds : AddCall K → K → Prop
  | .thread key, k => k = key
  | .group _ key, k => k = key
  | .coop members, k => ∃ i < P.addLayout.horizontal, members i = some k

/-- What a thread of a call does. -/
def program : AddCall K → ℕ → List P.Write
  | .thread key, rank => if rank = 0 then P.addKey numBlocks key else []
  | .group tileSize key, rank =>
    if P.addLayout.horizontal = 1 ∨ tileSize ≠ P.addLayout.horizontal then
      if rank = 0 then P.addKey numBlocks key else []
    else if rank < tileSize then P.addPart numBlocks key rank
    else []
  | .coop members, rank =>
    if rank < P.addLayout.horizontal then
      (List.range P.addLayout.horizontal).flatMap fun i =>
        match members i with
        | none => []
        | some key => P.addPart numBlocks key rank
    else []

/-! ## 2. Runs -/

/-- Where a thread stands: the words it has still to set, and whether it has seen that the first one
lacks a bit. -/
structure ThreadPc where
  todo : List P.Write
  seen : Bool

/-- One step of `__atomic_or`. -/
def threadStep (words : ℕ → P.Word) : P.ThreadPc → Option ((ℕ → P.Word) × P.ThreadPc)
  | ⟨[], _⟩ => none
  | ⟨(address, pattern) :: rest, seen⟩ =>
    if P.conditionalAdd = .on ∧ seen = false then
      if words address &&& pattern ≠ pattern then
        some (words, ⟨(address, pattern) :: rest, true⟩)
      else some (words, ⟨rest, false⟩)
    else some (Function.update words address (words address ||| pattern), ⟨rest, false⟩)

/-- The words of the filter, and where each thread of each call stands. -/
structure AddState (ι : Type*) where
  words : ℕ → P.Word
  pc : ι → ℕ → P.ThreadPc

variable {ι : Type*}

/-- One step of the thread with this rank of a call. -/
def addStep [DecidableEq ι] (s : P.AddState ι) (c : ι) (rank : ℕ) : Option (P.AddState ι) :=
  (P.threadStep s.words (s.pc c rank)).map fun r =>
    ⟨r.1, Function.update s.pc c (Function.update (s.pc c) rank r.2)⟩

/-- The runs of concurrent calls on a filter. -/
def addRuns [DecidableEq ι] (calls : ι → AddCall K) (start : ℕ → P.Word) : Lts (P.AddState ι) (ι × ℕ) where
  init s := s = ⟨start, fun c rank => ⟨P.program numBlocks (calls c) rank, false⟩⟩
  step s a s' := P.addStep s a.1 a.2 = some s'

variable {P}

/-- All threads of a call have finished. -/
def AddState.Returned (s : P.AddState ι) (c : ι) : Prop := ∀ rank, (s.pc c rank).todo = []

/-! ## 3. What a call writes -/

section Writes

variable {L : Layout} {block : ℕ} {lowerHash : BitVec 32}

theorem addPattern_eq : ∀ n loopIndex,
    P.addPattern L block lowerHash n loopIndex = (List.range' loopIndex n).flatMap fun l =>
      (List.range L.vertical).map fun i =>
        (block * P.wordsPerBlock + l * L.vertical + i, P.arrayPattern l L.vertical lowerHash i)
  | 0, _ => rfl
  | n + 1, loopIndex => by
    rw [addPattern, addPattern_eq n, List.range'_succ, List.flatMap_cons]

theorem addPatterns_eq (threadIndex : ℕ) : ∀ n loopIndex,
    P.addPatterns L block lowerHash threadIndex n loopIndex =
      (List.range' loopIndex n).flatMap fun l => (List.range L.vertical).map fun i =>
        (block * P.wordsPerBlock + l * L.vertical * L.horizontal + threadIndex * L.vertical + i,
          P.arrayPatternOf l L.horizontal L.vertical lowerHash threadIndex i)
  | 0, _ => rfl
  | n + 1, loopIndex => by
    rw [addPatterns, addPatterns_eq threadIndex n, List.range'_succ, List.flatMap_cons]

/-- The word of the fingerprint at a place in the block. -/
def patternWrite (P : BloomPolicy K) (block : ℕ) (lowerHash : BitVec 32) (wordIndex : ℕ) :
    P.Write :=
  (block * P.wordsPerBlock + wordIndex, P.wordPattern lowerHash wordIndex)

theorem mem_addPattern {w : P.Write} :
    w ∈ P.addPattern L block lowerHash (L.loopCount P.wordsPerBlock) 0 ↔
      ∃ l < L.loopCount P.wordsPerBlock, ∃ i < L.vertical,
        w = P.patternWrite block lowerHash (l * L.vertical + i) := by
  rw [addPattern_eq]
  simp only [List.mem_flatMap, List.mem_range'_1, List.mem_map, List.mem_range, Nat.zero_add,
    Nat.zero_le, true_and]
  refine exists_congr fun l => and_congr_right fun _ => exists_congr fun i =>
    and_congr_right fun hi => ?_
  rw [P.arrayPattern_eq l lowerHash hi, patternWrite, Nat.add_assoc]
  exact eq_comm

theorem mem_addPatterns {w : P.Write} {threadIndex : ℕ} (hthread : threadIndex < L.horizontal) :
    w ∈ P.addPatterns L block lowerHash threadIndex (L.loopCount P.wordsPerBlock) 0 ↔
      ∃ l < L.loopCount P.wordsPerBlock, ∃ i < L.vertical,
        w = P.patternWrite block lowerHash ((l * L.horizontal + threadIndex) * L.vertical + i) := by
  rw [addPatterns_eq]
  simp only [List.mem_flatMap, List.mem_range'_1, List.mem_map, List.mem_range, Nat.zero_add,
    Nat.zero_le, true_and]
  refine exists_congr fun l => and_congr_right fun hl => exists_congr fun i =>
    and_congr_right fun hi => ?_
  have hfirst : l * L.vertical * L.horizontal + threadIndex * L.vertical =
      (l * L.horizontal + threadIndex) * L.vertical := by
    rw [Nat.add_mul, Nat.mul_right_comm]
  rw [P.arrayPatternOf_eq lowerHash hl hthread hi, patternWrite, Nat.add_assoc, Nat.add_assoc,
    ← Nat.add_assoc _ _ i, hfirst]
  exact eq_comm

/-- **The words that are written are those of the fingerprint**, whatever the layout. -/
theorem mem_addWrites (hL : L.Tiles P.wordsPerBlock) {w : P.Write} :
    w ∈ P.addWrites L block lowerHash ↔
      ∃ wordIndex < P.wordsPerBlock, w = P.patternWrite block lowerHash wordIndex := by
  unfold addWrites
  split
  · rename_i hone
    rw [mem_addPattern]
    constructor
    · rintro ⟨l, hl, i, hi, rfl⟩
      have hlt := hL.word_lt hl hL.horizontal_pos hi
      rw [hone, Nat.mul_one, Nat.add_zero] at hlt
      exact ⟨_, hlt, rfl⟩
    · rintro ⟨wordIndex, hword, rfl⟩
      obtain ⟨l, hl, threadIndex, hthread, i, hi, rfl⟩ := hL.exists_slice hword
      rw [hone] at hthread ⊢
      obtain rfl : threadIndex = 0 := by omega
      rw [Nat.mul_one, Nat.add_zero]
      exact ⟨l, hl, i, hi, rfl⟩
  · simp only [List.mem_flatMap, List.mem_range]
    constructor
    · rintro ⟨threadIndex, hthread, hw⟩
      obtain ⟨l, hl, i, hi, rfl⟩ := (mem_addPatterns hthread).mp hw
      exact ⟨_, hL.word_lt hl hthread hi, rfl⟩
    · rintro ⟨wordIndex, hword, rfl⟩
      obtain ⟨l, hl, threadIndex, hthread, i, hi, rfl⟩ := hL.exists_slice hword
      exact ⟨threadIndex, hthread, (mem_addPatterns hthread).mpr ⟨l, hl, i, hi, rfl⟩⟩

/-- The words of a fingerprint are all written by some thread of a call that adds the key. -/
theorem exists_program {call : AddCall K} {key : K} (hkey : P.Adds call key) {wordIndex : ℕ}
    (hword : wordIndex < P.wordsPerBlock) :
    ∃ rank, P.patternWrite (P.blockOf numBlocks key) (P.lowerHashOf key) wordIndex ∈
      P.program numBlocks call rank := by
  have hthread : P.patternWrite (P.blockOf numBlocks key) (P.lowerHashOf key) wordIndex ∈
      P.addKey numBlocks key :=
    (mem_addWrites P.addLayout_tiles).mpr ⟨wordIndex, hword, rfl⟩
  have hgroup : ∃ rank < P.addLayout.horizontal,
      P.patternWrite (P.blockOf numBlocks key) (P.lowerHashOf key) wordIndex ∈
        P.addPart numBlocks key rank := by
    obtain ⟨l, hl, rank, hrank, i, hi, rfl⟩ := P.addLayout_tiles.exists_slice hword
    exact ⟨rank, hrank, (mem_addPatterns hrank).mpr ⟨l, hl, i, hi, rfl⟩⟩
  cases call with
  | thread k =>
    obtain rfl : key = k := hkey
    exact ⟨0, by simpa only [program, if_true] using hthread⟩
  | group tileSize k =>
    obtain rfl : key = k := hkey
    simp only [program]
    split
    · exact ⟨0, by simpa only [if_true] using hthread⟩
    · rename_i hsize
      rw [not_or, not_not] at hsize
      obtain ⟨rank, hrank, hmem⟩ := hgroup
      refine ⟨rank, ?_⟩
      rwa [hsize.2, if_pos hrank]
  | coop members =>
    obtain ⟨i, hi, hmember⟩ := hkey
    obtain ⟨rank, hrank, hmem⟩ := hgroup
    refine ⟨rank, ?_⟩
    simp only [program, if_pos hrank, List.mem_flatMap, List.mem_range]
    refine ⟨i, hi, ?_⟩
    rwa [hmember]

theorem of_mem_program {call : AddCall K} {rank : ℕ} {w : P.Write}
    (h : w ∈ P.program numBlocks call rank) :
    ∃ key, P.Adds call key ∧ ∃ wordIndex < P.wordsPerBlock,
      w = P.patternWrite (P.blockOf numBlocks key) (P.lowerHashOf key) wordIndex := by
  have hthread : ∀ {key}, w ∈ (if rank = 0 then P.addKey numBlocks key else []) →
      ∃ wordIndex < P.wordsPerBlock,
        w = P.patternWrite (P.blockOf numBlocks key) (P.lowerHashOf key) wordIndex := by
    intro key hw
    split at hw
    · exact (mem_addWrites P.addLayout_tiles).mp hw
    · exact absurd hw List.not_mem_nil
  have hgroup : ∀ {key}, rank < P.addLayout.horizontal → w ∈ P.addPart numBlocks key rank →
      ∃ wordIndex < P.wordsPerBlock,
        w = P.patternWrite (P.blockOf numBlocks key) (P.lowerHashOf key) wordIndex := by
    intro key hrank hw
    obtain ⟨l, hl, i, hi, rfl⟩ := (mem_addPatterns hrank).mp hw
    exact ⟨_, P.addLayout_tiles.word_lt hl hrank hi, rfl⟩
  cases call with
  | thread key => exact ⟨key, rfl, hthread h⟩
  | group tileSize key =>
    simp only [program] at h
    split at h
    · exact ⟨key, rfl, hthread h⟩
    · rename_i hsize
      rw [not_or, not_not] at hsize
      split at h
      · rename_i hrank
        exact ⟨key, rfl, hgroup (hsize.2 ▸ hrank) h⟩
      · exact absurd h List.not_mem_nil
  | coop members =>
    simp only [program] at h
    split at h
    · rename_i hrank
      obtain ⟨i, hi, hw⟩ := List.mem_flatMap.mp h
      split at hw
      · exact absurd hw List.not_mem_nil
      · rename_i key hmember
        exact ⟨key, ⟨i, List.mem_range.mp hi, hmember⟩, hgroup hrank hw⟩
    · exact absurd h List.not_mem_nil

end Writes

/-! ## 4. Bits stay set -/

/-- The bits of a write are set. -/
def HasBits (words : ℕ → P.Word) (w : P.Write) : Prop := words w.1 &&& w.2 = w.2

theorem or_and_of_and {n : ℕ} {x p : BitVec n} (h : x &&& p = p) (y : BitVec n) :
    (x ||| y) &&& p = p := by
  ext i hi
  have hbit := congrArg (fun z : BitVec n => z[i]) h
  simp only [BitVec.getElem_and, BitVec.getElem_or] at hbit ⊢
  cases hx : x[i] <;> simp_all

theorem or_and_self {n : ℕ} (x p : BitVec n) : (x ||| p) &&& p = p := by
  rw [BitVec.or_comm]
  exact or_and_of_and (BitVec.and_self) x

theorem getLsbD_of_hasBits {words : ℕ → P.Word} {w : P.Write} (h : HasBits words w) {i : ℕ}
    (hbit : w.2.getLsbD i = true) : (words w.1).getLsbD i = true := by
  rw [← h, BitVec.getLsbD_and, Bool.and_eq_true] at hbit
  exact hbit.1

/-- What a thread has done so far is there. -/
def ThreadInv (program : List P.Write) (words : ℕ → P.Word) (pc : P.ThreadPc) : Prop :=
  ∃ done, program = done ++ pc.todo ∧ ∀ w ∈ done, HasBits words w

/-- A step of a thread clears no bit, keeps what it has done, and sets only bits it has to set. -/
theorem threadStep_spec {program : List P.Write} {words words' : ℕ → P.Word} {pc pc' : P.ThreadPc}
    (h : ThreadInv program words pc) (hstep : P.threadStep words pc = some (words', pc')) :
    (∀ w, HasBits words w → HasBits words' w) ∧ ThreadInv program words' pc' ∧
      ∀ address i, (words' address).getLsbD i = true → (words address).getLsbD i = true ∨
        ∃ w ∈ program, w.1 = address ∧ w.2.getLsbD i = true := by
  obtain ⟨done, hdone, hset⟩ := h
  obtain ⟨todo, seen⟩ := pc
  cases todo with
  | nil => exact absurd hstep (by simp [threadStep])
  | cons w rest =>
    obtain ⟨address, pattern⟩ := w
    have hnext : program = (done ++ [(address, pattern)]) ++ rest := by simpa using hdone
    simp only [threadStep] at hstep
    split at hstep
    · split at hstep
      · -- there is something to do
        obtain ⟨rfl, rfl⟩ := Prod.mk.inj (Option.some.inj hstep)
        exact ⟨fun _ hw => hw, ⟨done, hdone, hset⟩, fun _ _ hbit => Or.inl hbit⟩
      · rename_i hbits
        obtain ⟨rfl, rfl⟩ := Prod.mk.inj (Option.some.inj hstep)
        refine ⟨fun _ hw => hw, ⟨done ++ [(address, pattern)], hnext, fun w hw => ?_⟩,
          fun _ _ hbit => Or.inl hbit⟩
        rcases List.mem_append.mp hw with hw | hw
        · exact hset w hw
        · obtain rfl := List.mem_singleton.mp hw
          exact not_not.mp hbits
    · obtain ⟨rfl, rfl⟩ := Prod.mk.inj (Option.some.inj hstep)
      have hgrows : ∀ w, HasBits words w →
          HasBits (Function.update words address (words address ||| pattern)) w := by
        intro w hw
        unfold HasBits at hw ⊢
        rcases eq_or_ne w.1 address with heq | hne
        · rw [heq, Function.update_self]
          rw [heq] at hw
          exact or_and_of_and hw pattern
        · rwa [Function.update_of_ne hne]
      refine ⟨hgrows, ⟨done ++ [(address, pattern)], hnext, fun w hw => ?_⟩,
        fun address' i hbit => ?_⟩
      · rcases List.mem_append.mp hw with hw | hw
        · exact hgrows w (hset w hw)
        · obtain rfl := List.mem_singleton.mp hw
          simp only [HasBits, Function.update_self]
          exact or_and_self _ _
      · rcases eq_or_ne address' address with rfl | hne
        · rw [Function.update_self, BitVec.getLsbD_or, Bool.or_eq_true] at hbit
          refine hbit.imp_right fun hbit => ⟨(address', pattern), ?_, rfl, hbit⟩
          rw [hdone]
          exact List.mem_append_right _ List.mem_cons_self
        · rw [Function.update_of_ne hne] at hbit
          exact Or.inl hbit

/-- What holds in every state of the calls: what a thread has done is there, no bit has been cleared,
and only the bits of the calls have been set. -/
structure AddInv (numBlocks : BitVec 64) (calls : ι → AddCall K) (start : ℕ → P.Word)
    (s : P.AddState ι) : Prop where
  threads : ∀ c rank, ThreadInv (P.program numBlocks (calls c) rank) s.words (s.pc c rank)
  kept : ∀ w, HasBits start w → HasBits s.words w
  origin : ∀ address i, (s.words address).getLsbD i = true → (start address).getLsbD i = true ∨
    ∃ c rank, ∃ w ∈ P.program numBlocks (calls c) rank, w.1 = address ∧ w.2.getLsbD i = true

variable {numBlocks} {calls : ι → AddCall K} {start : ℕ → P.Word} {s : P.AddState ι}

/-- **Every step keeps what the threads have done.** -/
theorem AddInv.step [DecidableEq ι] (h : AddInv numBlocks calls start s) {c : ι} {rank : ℕ}
    {s' : P.AddState ι} (hstep : P.addStep s c rank = some s') :
    AddInv numBlocks calls start s' := by
  obtain ⟨⟨words', pc'⟩, hthread, rfl⟩ := Option.map_eq_some_iff.mp hstep
  obtain ⟨hgrows, hinv, horigin⟩ := threadStep_spec (h.threads c rank) hthread
  refine ⟨fun c' rank' => ?_, fun w hw => hgrows w (h.kept w hw), fun address i hbit => ?_⟩
  · have hothers : ThreadInv (P.program numBlocks (calls c') rank') words' (s.pc c' rank') := by
      obtain ⟨done, hdone, hset⟩ := h.threads c' rank'
      exact ⟨done, hdone, fun w hw => hgrows w (hset w hw)⟩
    rcases eq_or_ne c' c with rfl | hne
    · simp only [Function.update_self]
      rcases eq_or_ne rank' rank with rfl | hne'
      · rw [Function.update_self]
        exact hinv
      · rw [Function.update_of_ne hne']
        exact hothers
    · simp only [Function.update_of_ne hne]
      exact hothers
  · rcases horigin address i hbit with hbit | hnew
    · exact h.origin address i hbit
    · exact Or.inr ⟨c, rank, hnew⟩

theorem AddInv.of_reachable [DecidableEq ι] (h : (P.addRuns numBlocks calls start).Reachable s) :
    AddInv numBlocks calls start s := by
  refine h.invariant (P := AddInv numBlocks calls start) ?_ ?_
  · rintro s rfl
    exact ⟨fun c rank => ⟨[], rfl, by simp⟩, fun _ hw => hw, fun _ _ hbit => Or.inl hbit⟩
  · intro s a s' hs hstep
    exact hs.step hstep

/-- The fingerprints of the keys of a call that has returned are there. -/
theorem AddInv.hasPattern (h : AddInv numBlocks calls start s) {c : ι} (hret : s.Returned c)
    {key : K} (hkey : P.Adds (calls c) key) :
    P.HasPattern s.words (P.blockOf numBlocks key) (P.lowerHashOf key) := by
  intro wordIndex hword
  obtain ⟨rank, hmem⟩ := exists_program numBlocks hkey hword
  obtain ⟨done, hdone, hset⟩ := h.threads c rank
  rw [hret rank, List.append_nil] at hdone
  rw [hdone] at hmem
  exact hset _ hmem

/-! ## 5. The fingerprint -/

section Fingerprint

/-- A list of writes, one after the other. -/
def applyWrites (words : ℕ → P.Word) : List P.Write → ℕ → P.Word
  | [] => words
  | w :: rest => applyWrites (Function.update words w.1 (words w.1 ||| w.2)) rest

/-- The fingerprint that a layout writes, taken over the whole block. -/
def fingerprint (P : BloomPolicy K) (L : Layout) (lowerHash : BitVec 32) : ℕ → P.Word :=
  applyWrites (fun _ => 0#_) (P.addWrites L 0 lowerHash)

theorem applyWrites_bit (address i : ℕ) : ∀ (l : List P.Write) (words : ℕ → P.Word),
    (applyWrites words l address).getLsbD i = true ↔ (words address).getLsbD i = true ∨
      ∃ w ∈ l, w.1 = address ∧ w.2.getLsbD i = true
  | [], words => by simp [applyWrites]
  | w :: rest, words => by
    rw [applyWrites, applyWrites_bit address i rest]
    simp only [List.mem_cons, exists_eq_or_imp]
    rcases eq_or_ne w.1 address with rfl | hne
    · rw [Function.update_self, BitVec.getLsbD_or, Bool.or_eq_true, or_assoc]
      simp only [true_and]
    · rw [Function.update_of_ne hne.symm]
      simp only [hne, false_and, false_or]

/-- **The fingerprint does not depend on the layout.** -/
theorem fingerprint_eq {L : Layout} (hL : L.Tiles P.wordsPerBlock) (lowerHash : BitVec 32) :
    P.fingerprint L lowerHash = fun wordIndex =>
      if wordIndex < P.wordsPerBlock then P.wordPattern lowerHash wordIndex else 0#_ := by
  funext wordIndex
  refine BitVec.eq_of_getLsbD_eq fun i _ => ?_
  rw [Bool.eq_iff_iff, fingerprint, applyWrites_bit]
  simp only [BitVec.getLsbD_zero, Bool.false_eq_true, false_or, mem_addWrites hL]
  constructor
  · rintro ⟨w, ⟨wordIndex', hword, rfl⟩, haddress, hbit⟩
    obtain rfl : wordIndex' = wordIndex := by simpa [patternWrite] using haddress
    rwa [if_pos hword]
  · intro hbit
    split at hbit
    · rename_i hword
      exact ⟨_, ⟨wordIndex, hword, rfl⟩, by simp [patternWrite], hbit⟩
    · simp at hbit

end Fingerprint

/-! ## 6. No false negatives -/

/-- **A Bloom filter has no false negatives**, whatever the policy, the number of blocks and what is in
the filter.  In every state of every run of concurrent calls, `contains` of either layout returns `true`
for the keys of the calls that have returned; when all calls have returned, the filter holds what it
held, and the fingerprints of their keys, and nothing else; a fingerprint does not depend on the layout;
and the block of a key is one of the filter. -/
theorem contains_of_added [DecidableEq ι] (P : BloomPolicy K) (numBlocks : BitVec 64)
    (hpos : 0 < numBlocks.toNat) (calls : ι → AddCall K) (start : ℕ → P.Word) (s : P.AddState ι)
    (h : (P.addRuns numBlocks calls start).Reachable s) :
    (∀ c, s.Returned c → ∀ key, P.Adds (calls c) key →
      P.contains s.words numBlocks key = true ∧
      (∀ tileSize, P.containsGroup s.words numBlocks tileSize key = true) ∧
      ∀ members, ∀ rank < P.containsLayout.horizontal, members rank = some key →
        P.containsCoop s.words numBlocks members rank = true) ∧
    ((∀ c, s.Returned c) → ∀ address i, (s.words address).getLsbD i = true ↔
      (start address).getLsbD i = true ∨
        ∃ c key, P.Adds (calls c) key ∧ ∃ wordIndex < P.wordsPerBlock,
          address = P.blockOf numBlocks key * P.wordsPerBlock + wordIndex ∧
          (P.fingerprint P.addLayout (P.lowerHashOf key) wordIndex).getLsbD i = true) ∧
    (∀ L L' : Layout, L.Tiles P.wordsPerBlock → L'.Tiles P.wordsPerBlock → ∀ lowerHash,
      P.fingerprint L lowerHash = P.fingerprint L' lowerHash) ∧
    ∀ key, P.blockOf numBlocks key < numBlocks.toNat := by
  have hinv := AddInv.of_reachable h
  refine ⟨fun c hret key hkey => ?_, fun hall address i => ?_, fun L L' hL hL' lowerHash => ?_,
    fun key => blockIndex_lt _ hpos⟩
  · have hpattern := hinv.hasPattern hret hkey
    exact ⟨contains_iff.mpr hpattern, fun _ => containsGroup_iff.mpr hpattern,
      fun members rank hrank hmember => (containsCoop_iff hrank hmember).mpr hpattern⟩
  · have hfingerprint : ∀ {lowerHash wordIndex}, wordIndex < P.wordsPerBlock →
        P.fingerprint P.addLayout lowerHash wordIndex = P.wordPattern lowerHash wordIndex := by
      intro lowerHash wordIndex hword
      rw [fingerprint_eq P.addLayout_tiles]
      exact if_pos hword
    constructor
    · intro hbit
      refine (hinv.origin address i hbit).imp_right ?_
      rintro ⟨c, rank, w, hw, rfl, hbit⟩
      obtain ⟨key, hkey, wordIndex, hword, rfl⟩ := of_mem_program numBlocks hw
      exact ⟨c, key, hkey, wordIndex, hword, rfl, by rwa [hfingerprint hword]⟩
    · rintro (hbit | ⟨c, key, hkey, wordIndex, hword, rfl, hbit⟩)
      · have hkept : HasBits s.words (address, start address) :=
          hinv.kept _ (by simp only [HasBits, BitVec.and_self])
        exact getLsbD_of_hasBits hkept hbit
      · rw [hfingerprint hword] at hbit
        have hset : HasBits s.words
            (P.patternWrite (P.blockOf numBlocks key) (P.lowerHashOf key) wordIndex) :=
          hinv.hasPattern (hall c) hkey wordIndex hword
        exact getLsbD_of_hasBits hset hbit
  · rw [fingerprint_eq hL, fingerprint_eq hL']

/-- Blocks of two words, added by one thread and looked at by two. -/
def twoWords : BloomPolicy ℕ where
  hash key := BitVec.ofNat 64 key * 0x9E3779B97F4A7C15
  wordType := .unsignedInt
  wordsPerBlock := 2
  patternBits := 3
  addLayout := ⟨1, 2⟩
  containsLayout := ⟨2, 1⟩
  conditionalAdd := .on
  earlyExitContains := .on
  wordsPerBlock_powerOfTwo := ⟨1, rfl⟩
  wordsPerBlock_le := by decide
  minPatternBits_le := by decide
  le_maxPatternBits := by decide
  addLayout_tiles := ⟨by decide, by decide, by decide⟩
  containsLayout_tiles := ⟨by decide, by decide, by decide⟩

/-- A key is added to a filter of three blocks. -/
theorem contains_of_added_oneKey :
    ∃ s, (twoWords.addRuns 3 (fun _ : Unit => .thread 7) fun _ => 0#32).Reachable s ∧
      s.Returned () ∧ twoWords.contains s.words 3 7 = true := by
  let runs := twoWords.addRuns 3 (fun _ : Unit => .thread 7) fun _ => 0#32
  obtain ⟨s, hs, hret⟩ : ∃ s, runs.Reachable s ∧ s.Returned () := by
    refine ⟨_, .step (a := ((), 0)) (.step (a := ((), 0)) (.step (a := ((), 0))
      (.step (a := ((), 0)) (.init rfl) rfl) rfl) rfl) rfl, fun rank => ?_⟩
    match rank with
    | 0 => rfl
    | rank + 1 => rfl
  exact ⟨s, hs, hret, ((contains_of_added twoWords 3 (by decide) _ _ s hs).1 () hret 7 rfl).1⟩

end BloomPolicy

end Cccl.Cuco
