/-
# What output buffers lose

Nothing is lost or repeated by a buffer that has a free place before each `push_back`.  A buffer that
grows always has one, and so has the buffer that pretends to have room.  The buffer of a container has
none after a bulk write of exactly as many characters as it holds, or a multiple of that: the last
piece fills it, and nothing is handed on.  A `push_back` that comes next stores behind its end
(`Piece.Fills`).

So a run is right exactly if no such `push_back` is in it, where the operations count that are left
after the limit was applied (`writesAll_iff`).
-/
import Cccl.Format.Buffer
import Mathlib.Data.List.Chain

namespace Cccl.Format

open OutputBuffer

variable {ι γ : Type} {convert : ι → γ}

/-! ## 1. What is left of the operations -/

/-- An operation behind the limit. -/
inductive Piece (γ : Type)
  | push (c : γ)
  | bulk (data : List γ)

namespace Piece

def text : Piece γ → List γ
  | .push c => [c]
  | .bulk data => data

def write : Piece γ → OutputBuffer γ → Option (OutputBuffer γ)
  | .push c => OutputBuffer.push c
  | .bulk data => OutputBuffer.bulk data

/-- It leaves no free place. -/
def Fills (kind : Kind) : Piece γ → Prop
  | .push _ => False
  | .bulk data => kind = .containerInserter ∧ 0 < data.length ∧ data.length % 256 = 0

def IsPush : Piece γ → Prop
  | .push _ => True
  | .bulk _ => False

/-- Which operation may follow on which. -/
def Follows (kind : Kind) (p q : Piece γ) : Prop := ¬ (p.Fills kind ∧ q.IsPush)

instance (kind : Kind) : (p : Piece γ) → Decidable (p.Fills kind)
  | .push _ => inferInstanceAs (Decidable False)
  | .bulk _ => inferInstanceAs (Decidable (_ ∧ _ ∧ _))

instance : (p : Piece γ) → Decidable p.IsPush
  | .push _ => inferInstanceAs (Decidable True)
  | .bulk _ => inferInstanceAs (Decidable False)

instance (kind : Kind) : DecidableRel (Follows kind (γ := γ)) := fun _ _ =>
  inferInstanceAs (Decidable (¬ (_ ∧ _)))

end Piece

/-- The first characters of an operation. -/
def Op.cut (convert : ι → γ) (n : ℕ) : Op ι γ → Piece γ
  | .pushBack c => .push c
  | op => .bulk ((op.text convert).take n)

/-- The operations behind the limit: how many characters it still allows. -/
def effective (convert : ι → γ) : Option ℕ → List (Op ι γ) → List (Piece γ)
  | _, [] => []
  | none, op :: ops => op.cut convert (op.text convert).length :: effective convert none ops
  | some room, op :: ops =>
    let n := min (op.text convert).length room
    let rest := effective convert (some (room - (op.text convert).length)) ops
    if n = 0 then rest else op.cut convert n :: rest

/-- All characters that are asked for. -/
def requested (convert : ι → γ) (ops : List (Op ι γ)) : List γ := ops.flatMap (Op.text convert)

theorem text_cut (op : Op ι γ) {n : ℕ} (hn : 0 < n) :
    (op.cut convert n).text = (op.text convert).take n := by
  cases op with
  | pushBack c => exact (List.take_of_length_le hn).symm
  | copy str => rfl
  | transform data operation => rfl
  | fill k value => rfl

theorem flatMap_effective_none : ∀ ops : List (Op ι γ),
    (effective convert none ops).flatMap Piece.text = requested convert ops
  | [] => rfl
  | op :: ops => by
    have htext : (op.cut convert (op.text convert).length).text = op.text convert := by
      cases op with
      | pushBack c => rfl
      | copy str => exact List.take_length
      | transform data operation => exact List.take_length
      | fill k value => exact List.take_length
    rw [effective, List.flatMap_cons, flatMap_effective_none ops, htext, requested, requested,
      List.flatMap_cons]

theorem flatMap_effective_some : ∀ (ops : List (Op ι γ)) (room : ℕ),
    (effective convert (some room) ops).flatMap Piece.text = (requested convert ops).take room
  | [], room => by
    rw [effective, requested, List.flatMap_nil, List.flatMap_nil, List.take_nil]
  | op :: ops, room => by
    have hrest := flatMap_effective_some ops (room - (op.text convert).length)
    rw [requested, List.flatMap_cons, List.take_append, ← requested, ← hrest, effective]
    split
    · rename_i hzero
      have hnil : (op.text convert).take room = [] := by
        rw [List.take_eq_nil_iff, ← List.length_eq_zero_iff]
        omega
      rw [hnil, List.nil_append]
    · rename_i hpos
      rw [List.flatMap_cons, text_cut op (Nat.pos_of_ne_zero hpos), Nat.min_comm,
        ← List.take_eq_take_min]

/-! ## 2. Room in the buffer -/

namespace OutputBuffer

/-- The capacity is the one of the kind. -/
structure Inv (b : OutputBuffer γ) : Prop where
  size_le : b.size ≤ b.capacity
  container : b.kind = .containerInserter → b.capacity = 256
  direct : b.kind = .directIterator → b.capacity = 2 ^ 64 - 1
  grows : b.kind ≠ .containerInserter → b.kind ≠ .directIterator → 256 ≤ b.capacity

/-- `push_back` finds a free place. -/
def Ready (b : OutputBuffer γ) : Prop := b.size < b.capacity

/-- The buffers that pretend to have room must have it. -/
def Fits (n : ℕ) (b : OutputBuffer γ) : Prop :=
  b.kind = .directIterator → b.size + n + 1 < 2 ^ 64

/-- What a write of some characters leaves as it is, and what it makes of the output. -/
structure Appends (data : List γ) (b b' : OutputBuffer γ) : Prop where
  inv : b'.Inv
  kind : b'.kind = b.kind
  limit : b'.limit = b.limit
  output : b'.output = b.output ++ data
  size_le : b'.size ≤ b.size + data.length

theorem Appends.refl {b : OutputBuffer γ} (h : b.Inv) : Appends [] b b :=
  ⟨h, rfl, rfl, (List.append_nil _).symm, Nat.le_refl _⟩

theorem Appends.trans {data data' : List γ} {b b' b'' : OutputBuffer γ} (h : Appends data b b')
    (h' : Appends data' b' b'') : Appends (data ++ data') b b'' := by
  refine ⟨h'.inv, h'.kind.trans h.kind, h'.limit.trans h.limit, ?_, ?_⟩
  · rw [h'.output, h.output, List.append_assoc]
  · have hle := h.size_le
    have hle' := h'.size_le
    rw [List.length_append]
    omega

theorem store_spec {b : OutputBuffer γ} {data : List γ} (h : b.Inv)
    (hroom : b.size + data.length ≤ b.capacity) :
    ∃ b', b.store data = some b' ∧ Appends data b b' ∧ b'.size = b.size + data.length ∧
      b'.capacity = b.capacity := by
  have hsize : ({ b with contents := b.contents ++ data } : OutputBuffer γ).size =
      b.size + data.length := List.length_append
  refine ⟨_, if_pos hroom, ⟨⟨?_, h.container, h.direct, h.grows⟩, rfl, rfl, ?_, hsize.le⟩, hsize, rfl⟩
  · rw [hsize]
    exact hroom
  · unfold output
    dsimp only
    split
    · exact (List.append_assoc _ _ _).symm
    · rfl

/-- **`__prepare_write`** makes room for all characters and one more, or hands on all that is in the
buffer. -/
theorem prepareWrite_spec {b : OutputBuffer γ} {n : ℕ} (h : b.Inv) (hfits : b.Fits n) :
    ∃ b', b.prepareWrite n = some b' ∧ Appends [] b b' ∧
      (n + 1 ≤ b'.available ∨ b'.kind = .containerInserter ∧ b'.size = 0) := by
  unfold prepareWrite
  split
  · rename_i hshort
    unfold prepareWriteOf
    have hgrow : ∀ capacity, b.capacity + (n + 1 + 1) ≤ capacity → 256 ≤ capacity →
        b.kind ≠ .containerInserter → b.kind ≠ .directIterator →
        ∃ b', b.growBuffer capacity = some b' ∧ Appends [] b b' ∧
          (n + 1 ≤ b'.available ∨ b'.kind = .containerInserter ∧ b'.size = 0) := by
      intro capacity hle hlarge hk hk'
      have hsize := h.size_le
      have hsame : ({ b with capacity := capacity } : OutputBuffer γ).size = b.size := rfl
      rw [growBuffer, if_neg (by omega), if_pos (by omega)]
      refine ⟨_, rfl, ⟨⟨?_, fun hc => absurd hc hk, fun hd => absurd hd hk', fun _ _ => hlarge⟩,
        rfl, rfl, (List.append_nil _).symm, Nat.le_refl _⟩, Or.inl ?_⟩
      · rw [hsame]
        exact hsize.trans (by dsimp only; omega)
      · rw [available, hsame]
        dsimp only
        omega
    split
    · rename_i hkind
      have hlarge := h.grows (by rw [hkind]; decide) (by rw [hkind]; decide)
      exact hgrow _ (Nat.le_max_left _ _) (by omega) (by rw [hkind]; decide) (by rw [hkind]; decide)
    · rename_i hkind
      have hlarge := h.grows (by rw [hkind]; decide) (by rw [hkind]; decide)
      exact hgrow _ (Nat.le_max_left _ _) (by omega) (by rw [hkind]; decide) (by rw [hkind]; decide)
    · rename_i hkind
      have hcapacity := h.direct hkind
      have hlt := hfits hkind
      rw [available] at hshort
      omega
    · rename_i hkind
      refine ⟨_, rfl, ⟨⟨Nat.zero_le _, fun _ => h.container hkind, fun hd => ?_, fun hc => absurd hkind hc⟩,
        rfl, rfl, ?_, Nat.zero_le _⟩, Or.inr ⟨hkind, rfl⟩⟩
      · rw [hkind] at hd
        exact absurd hd (by decide)
      · unfold output
        dsimp only
        rw [hkind, List.append_nil]
  · rename_i hroom
    exact ⟨b, rfl, .refl h, Or.inl (Nat.not_lt.mp hroom)⟩

/-- **`push_back`** needs a free place and leaves one. -/
theorem push_spec {b : OutputBuffer γ} (h : b.Inv) (hready : b.Ready) (hfits : b.Fits 1) (c : γ) :
    ∃ b', b.push c = some b' ∧ Appends [c] b b' ∧ b'.Ready := by
  have hroom : b.size + [c].length ≤ b.capacity := hready
  obtain ⟨b₁, hstore, happends, hsize, hcapacity⟩ := store_spec h hroom
  rw [List.length_singleton] at hsize
  rw [push, hstore, Option.bind_some]
  by_cases hfull : b₁.size = b₁.capacity
  · have hfits₁ : b₁.Fits 0 := by
      intro hkind
      have hlt := hfits (happends.kind ▸ hkind)
      omega
    obtain ⟨b₂, hprepare, happends₂, hroom⟩ := prepareWrite_spec happends.inv hfits₁
    refine ⟨b₂, by rw [if_pos hfull, hprepare], happends.trans happends₂, ?_⟩
    rcases hroom with hroom | ⟨hkind, hzero⟩
    · rw [available] at hroom
      exact Nat.lt_of_sub_pos hroom
    · rw [Ready, hzero, happends₂.inv.container hkind]
      decide
  · exact ⟨b₁, if_neg hfull, happends, Nat.lt_of_le_of_ne happends.inv.size_le hfull⟩

theorem push_eq_none {b : OutputBuffer γ} (hready : ¬ b.Ready) (c : γ) : b.push c = none := by
  have hfull : ¬ b.size + [c].length ≤ b.capacity := hready
  rw [push, store, if_neg hfull]
  rfl

/-- A bulk write of so many characters ends with a full buffer. -/
def FillsUp (kind : Kind) (n : ℕ) : Prop := kind = .containerInserter ∧ 0 < n ∧ n % 256 = 0

theorem store_all {b : OutputBuffer γ} {data : List γ} (h : b.Inv)
    (hroom : data.length + 1 ≤ b.available) :
    ∃ b', b.store (data.take (min data.length b.available)) = some b' ∧ Appends data b b' ∧
      data.drop (min data.length b.available) = [] ∧ b'.Ready := by
  have hmin : min data.length b.available = data.length := Nat.min_eq_left (by omega)
  rw [available] at hroom
  have hstored : b.size + data.length ≤ b.capacity := by omega
  obtain ⟨b', hstore, happends, hsize, hcapacity⟩ := store_spec h hstored
  rw [hmin, List.take_length, List.drop_length]
  refine ⟨b', hstore, happends, rfl, ?_⟩
  rw [Ready, hsize, hcapacity]
  omega

/-- **A bulk write** leaves a free place, unless it ends with a full buffer. -/
theorem bulkLoop_spec : ∀ (fuel : ℕ) {data : List γ} {b : OutputBuffer γ}, data.length < fuel →
    b.Inv → b.Fits data.length → ∃ b', bulkLoop fuel data b = some b' ∧ Appends data b b' ∧
      (b'.Ready ↔ ¬ FillsUp b.kind data.length)
  | 0, _, _, hfuel, _, _ => absurd hfuel (Nat.not_lt_zero _)
  | fuel + 1, data, b, hfuel, h, hfits => by
    obtain ⟨b₁, hprepare, happends, hroom⟩ := prepareWrite_spec h hfits
    have hsmall : data.length + 1 ≤ b₁.available → ¬ FillsUp b.kind data.length := by
      rintro hle ⟨hkind, hpos, hmod⟩
      have hcapacity := happends.inv.container (happends.kind.trans hkind)
      rw [available] at hle
      omega
    rw [bulkLoop, hprepare, Option.bind_some]
    -- all that is left is stored in one piece
    have hone : data.length + 1 ≤ b₁.available → ∃ b',
        ((b₁.store (data.take (min data.length b₁.available))).bind fun b' =>
          if data.drop (min data.length b₁.available) = [] then some b'
          else bulkLoop fuel (data.drop (min data.length b₁.available)) b') = some b' ∧
        Appends data b b' ∧ (b'.Ready ↔ ¬ FillsUp b.kind data.length) := by
      intro hle
      obtain ⟨b₂, hstore, happends₂, hdone, hready⟩ := store_all happends.inv hle
      refine ⟨b₂, ?_, happends.trans happends₂, ⟨fun _ => hsmall hle, fun _ => hready⟩⟩
      rw [hstore, Option.bind_some, if_pos hdone]
    rcases hroom with hroom | ⟨hkind, hzero⟩
    · exact hone hroom
    have hcapacity := happends.inv.container hkind
    have havailable : b₁.available = 256 := by rw [available, hcapacity, hzero]
    rcases Nat.lt_or_ge data.length 256 with hless | hmore
    · exact hone (by omega)
    -- the buffer is empty, and is filled
    have hchunk : min data.length b₁.available = 256 := by rw [havailable, Nat.min_eq_right hmore]
    have htake : (data.take 256).length = 256 := List.length_take_of_le hmore
    have hstored : b₁.size + (data.take 256).length ≤ b₁.capacity := by omega
    obtain ⟨b₂, hstore, happends₂, hsize, hcapacity₂⟩ := store_spec happends.inv hstored
    have hkind₂ : b.kind = .containerInserter := happends.kind.symm.trans hkind
    have hboth : Appends (data.take 256) b b₂ := happends.trans happends₂
    dsimp only
    rw [hchunk, hstore, Option.bind_some]
    have hdrop : (data.drop 256).length = data.length - 256 := List.length_drop
    split
    · rename_i hnil
      have hlength : data.length = 256 := by
        rw [hnil, List.length_nil] at hdrop
        omega
      rw [List.take_of_length_le hlength.le] at hboth
      refine ⟨b₂, rfl, hboth, ⟨fun hready => ?_, fun hnot => absurd ⟨hkind₂, by omega, by omega⟩ hnot⟩⟩
      rw [Ready, hsize, htake, hcapacity₂, hcapacity] at hready
      omega
    · rename_i hne
      have hpos := List.length_pos_iff.mpr hne
      have hfits₂ : b₂.Fits (data.drop 256).length := by
        intro hdirect
        rw [hboth.kind, hkind₂] at hdirect
        exact absurd hdirect (by decide)
      obtain ⟨b₃, hloop, happends₃, hready⟩ := bulkLoop_spec fuel (by omega) happends₂.inv hfits₂
      have hall := hboth.trans happends₃
      rw [List.take_append_drop] at hall
      refine ⟨b₃, hloop, hall, hready.trans (not_congr ?_)⟩
      rw [FillsUp, FillsUp, hboth.kind, hdrop]
      refine and_congr_right fun _ => ?_
      omega

end OutputBuffer

/-! ## 3. A run -/

theorem Piece.write_spec {b : OutputBuffer γ} (p : Piece γ) (h : b.Inv)
    (hfits : b.Fits p.text.length) (hallowed : p.IsPush → b.Ready) :
    ∃ b', p.write b = some b' ∧ Appends p.text b b' ∧ (b'.Ready ↔ ¬ p.Fills b.kind) := by
  cases p with
  | push c =>
    obtain ⟨b', hpush, happends, hready⟩ := push_spec h (hallowed trivial) hfits c
    exact ⟨b', hpush, happends, ⟨fun _ hfills => hfills, fun _ => hready⟩⟩
  | bulk data => exact bulkLoop_spec _ (Nat.lt_succ_self _) h hfits

theorem Piece.write_eq_none {b : OutputBuffer γ} {p : Piece γ} (hpush : p.IsPush)
    (hready : ¬ b.Ready) : p.write b = none := by
  cases p with
  | push c => exact push_eq_none hready c
  | bulk data => exact absurd hpush id

/-- How many characters the limit still allows. -/
def room (b : OutputBuffer γ) : Option ℕ := b.limit.map fun l => l.maxSize - l.codeUnitsWritten

/-- What the limit is after some characters were asked for. -/
def MaxOutputSize.counted (n : ℕ) (l : MaxOutputSize) : MaxOutputSize :=
  { l with codeUnitsWritten := l.codeUnitsWritten + n }

theorem writeRequest_eq {l : MaxOutputSize} {n : ℕ} (h : l.codeUnitsWritten + n < 2 ^ 64) :
    l.writeRequest n = (min n (l.maxSize - l.codeUnitsWritten), l.counted n) := by
  rw [MaxOutputSize.writeRequest, Nat.mod_eq_of_lt h, MaxOutputSize.counted, Prod.mk.injEq]
  refine ⟨?_, rfl⟩
  split <;> omega

theorem request_congr {n : ℕ} {write write' : ℕ → OutputBuffer γ → Option (OutputBuffer γ)}
    (h : ∀ k ≤ n, write k = write' k) (b : OutputBuffer γ) :
    request n write b = request n write' b := by
  unfold request
  split
  · rw [h n (Nat.le_refl n)]
  · rename_i l _
    have hle : (l.writeRequest n).1 ≤ n := by
      rw [MaxOutputSize.writeRequest]
      dsimp only
      split <;> omega
    dsimp only
    rw [h _ hle]

theorem Op.run_eq (op : Op ι γ) (b : OutputBuffer γ) : op.run convert b =
    request (op.text convert).length (fun n => (op.cut convert n).write) b := by
  cases op with
  | pushBack c => rfl
  | copy str =>
    rw [Op.run, OutputBuffer.copy, Op.text, List.length_map]
    refine request_congr (fun k _ => ?_) b
    rw [List.map_take]
    rfl
  | transform data operation =>
    rw [Op.run, OutputBuffer.transform, Op.text, List.length_map]
    refine request_congr (fun k _ => ?_) b
    rw [List.map_take]
    rfl
  | fill n value =>
    rw [Op.run, OutputBuffer.fill, Op.text, List.length_replicate]
    refine request_congr (fun k hk => ?_) b
    have htake : (List.replicate n value).take k = List.replicate k value := by
      rw [List.take_replicate, Nat.min_eq_left hk]
    change _ = OutputBuffer.bulk ((List.replicate n value).take k)
    rw [htake]

/-- What a run makes of a buffer. -/
structure Runs (convert : ι → γ) (ops : List (Op ι γ)) (b b' : OutputBuffer γ) : Prop where
  run : runOps convert ops b = some b'
  kind : b'.kind = b.kind
  output : b'.output = b.output ++ (effective convert (room b) ops).flatMap Piece.text
  limit : b'.limit = b.limit.map (MaxOutputSize.counted (requested convert ops).length)

/-- A run succeeds from a buffer behind some operation exactly if no operation is in a place where it
may not be. -/
def RunsIff (convert : ι → γ) (ops : List (Op ι γ)) (prev : Piece γ) (b : OutputBuffer γ) : Prop :=
  (List.IsChain (Piece.Follows b.kind) (prev :: effective convert (room b) ops) →
    ∃ b', Runs convert ops b b') ∧
  (¬ List.IsChain (Piece.Follows b.kind) (prev :: effective convert (room b) ops) →
    runOps convert ops b = none)

/-- **One operation more** that is written. -/
theorem RunsIff.cons {op : Op ι γ} {ops : List (Op ι γ)} {prev p : Piece γ} {b b₀ : OutputBuffer γ}
    (hkind : b₀.kind = b.kind) (houtput : b₀.output = b.output)
    (hlimit : b₀.limit = b.limit.map (MaxOutputSize.counted (op.text convert).length))
    (hstep : op.run convert b = p.write b₀)
    (heffective : effective convert (room b) (op :: ops) = p :: effective convert (room b₀) ops)
    (h : b₀.Inv) (hready : b₀.Ready ↔ ¬ prev.Fills b.kind) (hfits : b₀.Fits p.text.length)
    (hrest : ∀ {b₁ : OutputBuffer γ}, Appends p.text b₀ b₁ → (b₁.Ready ↔ ¬ p.Fills b₁.kind) →
      RunsIff convert ops p b₁) : RunsIff convert (op :: ops) prev b := by
  have hrun : runOps convert (op :: ops) b = (p.write b₀).bind (runOps convert ops) := by
    rw [runOps, hstep]
  unfold RunsIff
  rw [heffective, List.isChain_cons_cons]
  by_cases hfollows : prev.Follows b.kind p
  · have hallowed : p.IsPush → b₀.Ready := fun hpush =>
      hready.mpr fun hfills => hfollows ⟨hfills, hpush⟩
    obtain ⟨b₁, hwrite, happends, hready₁⟩ := p.write_spec h hfits hallowed
    rw [← happends.kind] at hready₁
    obtain ⟨hyes, hno⟩ := hrest happends hready₁
    have hroom : room b₁ = room b₀ := by rw [room, room, happends.limit]
    have hkind₁ : b₁.kind = b.kind := happends.kind.trans hkind
    rw [hroom, hkind₁] at hyes hno
    rw [hwrite, Option.bind_some] at hrun
    refine ⟨fun hchain => ?_, fun hchain => ?_⟩
    · obtain ⟨b₂, hruns⟩ := hyes hchain.2
      refine ⟨b₂, hrun.trans hruns.run, hruns.kind.trans hkind₁, ?_, ?_⟩
      · rw [hruns.output, happends.output, houtput, heffective, List.flatMap_cons, hroom,
          List.append_assoc]
      · rw [hruns.limit, happends.limit, hlimit, Option.map_map, requested, requested,
          List.flatMap_cons, List.length_append]
        congr 1
        funext l
        rw [Function.comp_apply, MaxOutputSize.counted, MaxOutputSize.counted,
          MaxOutputSize.counted, Nat.add_assoc]
    · rw [hrun]
      exact hno fun hrest => hchain ⟨hfollows, hrest⟩
  · obtain ⟨hfills, hpush⟩ := not_not.mp hfollows
    refine ⟨fun hchain => absurd hchain.1 hfollows, fun _ => ?_⟩
    rw [hrun, Piece.write_eq_none hpush fun h => hready.mp h hfills]
    rfl

theorem room_of_none {b : OutputBuffer γ} (h : b.limit = none) : room b = none := by
  rw [room, h]
  rfl

theorem room_of_some {b : OutputBuffer γ} {l : MaxOutputSize} (h : b.limit = some l) :
    room b = some (l.maxSize - l.codeUnitsWritten) := by
  rw [room, h]
  rfl

/-- **A run of operations**, by induction over them. -/
theorem runOps_spec : ∀ (ops : List (Op ι γ)) {prev : Piece γ} {b : OutputBuffer γ}, b.Inv →
    (b.Ready ↔ ¬ prev.Fills b.kind) →
    (∀ {l}, b.limit = some l → l.codeUnitsWritten + (requested convert ops).length < 2 ^ 64) →
    b.Fits ((effective convert (room b) ops).flatMap Piece.text).length →
    RunsIff convert ops prev b
  | [], prev, b, _, _, _, _ => by
    have hnil : effective convert (room b) ([] : List (Op ι γ)) = [] := by rw [effective]
    refine ⟨fun _ => ⟨b, rfl, rfl, ?_, ?_⟩, fun hchain => ?_⟩
    · rw [hnil]
      exact (List.append_nil _).symm
    · cases b.limit <;> rfl
    · rw [hnil] at hchain
      exact absurd (List.isChain_singleton _) hchain
  | op :: ops, prev, b, h, hready, hcount, hfits => by
    have hlength : (requested convert (op :: ops)).length =
        (op.text convert).length + (requested convert ops).length := by
      rw [requested, List.flatMap_cons, List.length_append, requested]
    -- the rest of the run, behind a piece that was written
    have hrest : ∀ {p : Piece γ} {b₀ b₁ : OutputBuffer γ},
        b₀.limit = b.limit.map (MaxOutputSize.counted (op.text convert).length) →
        b₀.Fits ((p :: effective convert (room b₀) ops).flatMap Piece.text).length →
        Appends p.text b₀ b₁ → (b₁.Ready ↔ ¬ p.Fills b₁.kind) → RunsIff convert ops p b₁ := by
      intro p b₀ b₁ hlimit hfits₀ happends hready₁
      have hroom : room b₁ = room b₀ := by rw [room, room, happends.limit]
      refine runOps_spec ops happends.inv hready₁ (fun {l} hl => ?_) ?_
      · rw [happends.limit, hlimit] at hl
        obtain ⟨l₀, hl₀, rfl⟩ := Option.map_eq_some_iff.mp hl
        have hlt := hcount hl₀
        rw [hlength] at hlt
        rw [MaxOutputSize.counted]
        dsimp only
        omega
      · intro hdirect
        have hlt := hfits₀ (happends.kind.symm.trans hdirect)
        rw [List.flatMap_cons, List.length_append] at hlt
        rw [hroom]
        have hsize := happends.size_le
        omega
    have hrun : op.run convert b = _ := Op.run_eq op b
    cases hlimit : b.limit with
    | none =>
      rw [room_of_none hlimit] at hfits
      rw [request, hlimit] at hrun
      have hroom := room_of_none hlimit
      have heffective : effective convert (room b) (op :: ops) =
          op.cut convert (op.text convert).length :: effective convert (room b) ops := by
        rw [hroom, effective]
      refine RunsIff.cons rfl rfl (by rw [hlimit]; rfl) hrun heffective h hready ?_
        (hrest (by rw [hlimit]; rfl) ?_)
      · intro hdirect
        have hlt := hfits hdirect
        rw [effective, List.flatMap_cons, List.length_append] at hlt
        omega
      · rw [← heffective, hroom]
        exact hfits
    | some l =>
      have hlt := hcount hlimit
      rw [hlength] at hlt
      have hroom := room_of_some hlimit
      rw [hroom] at hfits
      rw [request, hlimit] at hrun
      dsimp only at hrun
      rw [writeRequest_eq (by omega)] at hrun
      dsimp only at hrun
      let b₀ : OutputBuffer γ := { b with limit := some (l.counted (op.text convert).length) }
      have h₀ : b₀.Inv := ⟨h.size_le, h.container, h.direct, h.grows⟩
      have hroom₀ : room b₀ =
          some (l.maxSize - l.codeUnitsWritten - (op.text convert).length) := by
        rw [room_of_some (b := b₀) rfl, MaxOutputSize.counted, Nat.sub_sub]
      have hlimit₀ : b₀.limit = b.limit.map (MaxOutputSize.counted (op.text convert).length) := by
        rw [hlimit]
        rfl
      by_cases hzero : min (op.text convert).length (l.maxSize - l.codeUnitsWritten) = 0
      · have heffective : effective convert (room b) (op :: ops) =
            effective convert (room b₀) ops := by
          rw [hroom, hroom₀, effective]
          exact if_pos hzero
        rw [← hroom, heffective] at hfits
        have hsame : RunsIff convert ops prev b₀ :=
          runOps_spec ops h₀ hready (fun {l'} hl' => ?_) hfits
        · have hrunOps : runOps convert (op :: ops) b = runOps convert ops b₀ := by
            rw [runOps, hrun, if_pos hzero]
            rfl
          obtain ⟨hyes, hno⟩ := hsame
          unfold RunsIff
          rw [heffective, hrunOps]
          refine ⟨fun hchain => ?_, hno⟩
          obtain ⟨b', hruns⟩ := hyes hchain
          refine ⟨b', hrunOps.trans hruns.run, hruns.kind, ?_, ?_⟩
          · rw [hruns.output, heffective]
            rfl
          · rw [hruns.limit, hlimit₀, Option.map_map, hlength]
            congr 1
            funext l'
            rw [Function.comp_apply, MaxOutputSize.counted, MaxOutputSize.counted,
              MaxOutputSize.counted, Nat.add_assoc]
        · obtain rfl := Option.some.inj hl'
          rw [MaxOutputSize.counted]
          dsimp only
          omega
      · have heffective : effective convert (room b) (op :: ops) =
            op.cut convert (min (op.text convert).length (l.maxSize - l.codeUnitsWritten)) ::
              effective convert (room b₀) ops := by
          rw [hroom, hroom₀, effective]
          exact if_neg hzero
        rw [if_neg hzero] at hrun
        rw [← hroom, heffective] at hfits
        have hkind₀ : b₀.kind = b.kind := rfl
        refine RunsIff.cons hkind₀ rfl hlimit₀ hrun heffective h₀ hready ?_ (hrest hlimit₀ hfits)
        intro hdirect
        have hlt := hfits hdirect
        rw [List.flatMap_cons, List.length_append] at hlt
        exact Nat.lt_of_le_of_lt (by change b.size + _ + 1 ≤ _; omega) hlt

/-! ## 4. From the beginning -/

/-- A buffer of `format_to` or `format_to_n`. -/
def start (kind : Kind) (limit : Option ℤ) : OutputBuffer γ := create kind (limit.map ofDifference)

/-- All characters reach the output, up to the limit, no store is outside of the buffer, and the size
is the one that was asked for. -/
def WritesAll (convert : ι → γ) (kind : Kind) (limit : Option ℤ) (ops : List (Op ι γ)) : Prop :=
  ∃ b, runOps convert ops (start kind limit) = some b ∧
    b.output = (match limit with
      | none => requested convert ops
      | some n => (requested convert ops).take (max n 0).toNat) ∧
    ∀ n, limit = some n → b.reportedSize = some ((requested convert ops).length : ℤ)

theorem start_capacity (kind : Kind) (limit : Option ℤ) : (start kind limit : OutputBuffer γ).capacity =
    if kind = .directIterator then 2 ^ 64 - 1 else 256 := by
  cases kind <;> rfl

theorem start_ready (kind : Kind) (limit : Option ℤ) :
    (start kind limit : OutputBuffer γ).Ready := by
  have hzero : (start kind limit : OutputBuffer γ).size = 0 := rfl
  rw [Ready, hzero, start_capacity]
  split <;> decide

theorem start_inv (kind : Kind) (limit : Option ℤ) : (start kind limit : OutputBuffer γ).Inv := by
  have hkind : (start kind limit : OutputBuffer γ).kind = kind := rfl
  refine ⟨(start_ready kind limit).le, fun h => ?_, fun h => ?_, fun _ h => ?_⟩
  all_goals rw [hkind] at h
  all_goals rw [start_capacity]
  · rw [h, if_neg (by decide)]
  · rw [if_pos h]
  · rw [if_neg h]

theorem start_output (kind : Kind) (limit : Option ℤ) :
    (start kind limit : OutputBuffer γ).output = [] := by
  cases kind <;> rfl

theorem room_start (kind : Kind) (limit : Option ℤ) :
    room (start kind limit : OutputBuffer γ) = limit.map Int.toNat := by
  cases limit <;> rfl

theorem not_fills_nil (kind : Kind) : ¬ Piece.Fills kind (.bulk ([] : List γ)) :=
  fun h => Nat.lt_irrefl 0 h.2.1

theorem isChain_bulk_nil {kind : Kind} {ps : List (Piece γ)} :
    List.IsChain (Piece.Follows kind) (.bulk [] :: ps) ↔ List.IsChain (Piece.Follows kind) ps := by
  cases ps with
  | nil => exact ⟨fun _ => List.isChain_nil, fun _ => List.isChain_singleton _⟩
  | cons p ps =>
    rw [List.isChain_cons_cons]
    exact ⟨And.right, fun h => ⟨fun hfills => not_fills_nil _ hfills.1, h⟩⟩

theorem flatMap_effective (limit : Option ℤ) (ops : List (Op ι γ)) :
    (effective convert (limit.map Int.toNat) ops).flatMap Piece.text = (match limit with
      | none => requested convert ops
      | some n => (requested convert ops).take (max n 0).toNat) := by
  cases limit with
  | none => exact flatMap_effective_none ops
  | some n =>
    have hmax : (max n 0).toNat = n.toNat := by omega
    dsimp only
    rw [hmax]
    exact flatMap_effective_some ops n.toNat

theorem bmod_of_lt {n : ℕ} (h : n < 2 ^ 63) : Int.bmod n (2 ^ 64) = n :=
  Int.bmod_eq_of_le (by omega) (by omega)

/-- **Exactly which runs are right.**  The number of characters is one of a signed 64-bit type, if a
size is reported; without a limit the output is in memory. -/
theorem writesAll_iff (kind : Kind) (limit : Option ℤ) (ops : List (Op ι γ))
    (hlimit : ∀ n, limit = some n → n < 2 ^ 63)
    (hmemory : limit = none → (requested convert ops).length < 2 ^ 63) :
    WritesAll convert kind limit ops ↔
      List.IsChain (Piece.Follows kind) (effective convert (limit.map Int.toNat) ops) ∧
        (requested convert ops).length < 2 ^ 63 := by
  have hkind : (start kind limit : OutputBuffer γ).kind = kind := rfl
  by_cases hlarge : (requested convert ops).length < 2 ^ 63
  · have hstart : (start kind limit : OutputBuffer γ).Ready ↔
        ¬ Piece.Fills (start kind limit : OutputBuffer γ).kind (.bulk ([] : List γ)) :=
      ⟨fun _ => not_fills_nil _, fun _ => start_ready kind limit⟩
    have hspec : RunsIff convert ops _ _ :=
      runOps_spec ops (start_inv kind limit) hstart (fun {l} hl => ?_) ?_
    · obtain ⟨hyes, hno⟩ := hspec
      rw [hkind, room_start, isChain_bulk_nil] at hyes hno
      constructor
      · rintro ⟨b, hrun, -⟩
        refine ⟨?_, hlarge⟩
        by_contra hchain
        rw [hno hchain] at hrun
        exact absurd hrun (by simp)
      · rintro ⟨hchain, -⟩
        obtain ⟨b, hruns⟩ := hyes hchain
        have houtput := hruns.output
        rw [room_start, start_output, List.nil_append, flatMap_effective] at houtput
        refine ⟨b, hruns.run, houtput, ?_⟩
        rintro n rfl
        have hcounted := hruns.limit
        have hzero : 0 + (requested convert ops).length = (requested convert ops).length :=
          Nat.zero_add _
        rw [reportedSize, hcounted]
        change some (Int.bmod ((0 + (requested convert ops).length : ℕ) : ℤ) (2 ^ 64)) = _
        rw [hzero, bmod_of_lt hlarge]
    · cases limit with
      | none => exact absurd hl (by simp [start, create])
      | some n =>
        obtain rfl := Option.some.inj hl
        change 0 + _ < _
        omega
    · intro hdirect
      change 0 + _ + 1 < _
      rw [room_start, flatMap_effective]
      cases limit with
      | none =>
        dsimp only
        omega
      | some n =>
        have hlt := hlimit n rfl
        dsimp only
        rw [List.length_take]
        omega
  · refine ⟨?_, fun h => absurd h.2 hlarge⟩
    rintro ⟨b, -, -, hreported⟩
    cases limit with
    | none => exact absurd (hmemory rfl) hlarge
    | some n =>
      obtain ⟨l, -, hl⟩ := Option.map_eq_some_iff.mp (hreported n rfl)
      have hlt : Int.bmod l.codeUnitsWritten (2 ^ 64) < (2 ^ 64 + 1) / 2 :=
        Int.bmod_lt (by decide)
      omega

/-- The third character is cut off. -/
theorem writesAll_two : WritesAll id .containerInserter (some 2) [.pushBack 7, .fill 3 0] :=
  (writesAll_iff .containerInserter (some 2) [.pushBack 7, .fill 3 0] (by decide) (by decide)).mpr
    (by decide)

/-- A character behind as many as the buffer holds. -/
theorem not_writesAll_full :
    ¬ WritesAll id .containerInserter none [.fill 256 0, .pushBack 1] := by
  rintro ⟨b, hrun, -⟩
  have hnone : (runOps id [.fill 256 0, .pushBack 1]
      (start .containerInserter none : OutputBuffer ℕ)).isSome = false := by decide +kernel
  rw [hrun] at hnone
  exact Bool.noConfusion hnone

end Cccl.Format
