import GraphBufferPool.Indexer.LFBuild
import GraphBufferPool.Lib.Update

/-! # Threads on an `LFIndexer`

Any number of threads call `insert` and `get_index`, interleaved at their accesses to shared memory. An insertion gets
its index, writes its key to `keys_`, takes the first slot that it finds free, and writes the key to the slot; a lookup
reads the index of a slot before its key. Between the last two steps of an insertion its slot shows the key that free
slots have, which is 0.
-/

namespace Gbp

open Function Machine Fuel Probing LFIndexer

/-- A call on an `LFIndexer`. -/
inductive LFCall
  | insert (oid : ℤ)
  | getIndex (oid : ℤ)

/-- Where a thread is. A lookup remembers which insertions had returned before it; the phases after the calls keep their
results. -/
inductive LFPhase
  | idle
  | setting (ind : ℕ) (oid : ℤ)
  | probing (ind : ℕ) (oid : ℤ) (items : Items) (index : ℕ)
  | writing (ind : ℕ) (oid : ℤ) (place : ℕ)
  | inserted (ind : ℕ) (oid : ℤ)
  | seeking (oid : ℤ) (items : Items) (index : ℕ) (before : ℕ → Option ℤ)
  | comparing (oid : ℤ) (items : Items) (index place : ℕ) (before : ℕ → Option ℤ)
  | reading (oid : ℤ) (place : ℕ) (before : ℕ → Option ℤ)
  | answered (oid : ℤ) (ret : Option ℕ) (before : ℕ → Option ℤ)

namespace LFPhase

/-- The index of an insertion that has no slot yet. -/
def pending : LFPhase → Option ℕ
  | .setting ind _ => some ind
  | .probing ind _ _ _ => some ind
  | _ => none

/-- The index of an insertion that has not returned yet. -/
def owned : LFPhase → Option ℕ
  | .setting ind _ => some ind
  | .probing ind _ _ _ => some ind
  | .writing ind _ _ => some ind
  | _ => none

/-- The index of an insertion. -/
def inserts : LFPhase → Option ℕ
  | .setting ind _ => some ind
  | .probing ind _ _ _ => some ind
  | .writing ind _ _ => some ind
  | .inserted ind _ => some ind
  | _ => none

theorem inserts_of_owned {phase : LFPhase} {ind : ℕ} (owned : phase.owned = some ind) : phase.inserts = some ind := by
  cases phase <;> first | exact owned | cases owned

theorem owned_of_pending {phase : LFPhase} {ind : ℕ} (pending : phase.pending = some ind) : phase.owned = some ind := by
  cases phase <;> first | exact pending | cases pending

end LFPhase

/-- An `LFIndexer`, where each thread is, and the keys of the insertions that have returned, by their indices. -/
structure LFThreads (T : Type) where
  lf : LFIndexer
  phase : T → LFPhase
  done : ℕ → Option ℤ

namespace LFThreads

variable {T : Type} [DecidableEq T]

/-- Thread `t` goes on to a phase. -/
def enter (s : LFThreads T) (t : T) (phase : LFPhase) : LFThreads T := { s with phase := update s.phase t phase }

section model

variable (hash : Hashing ℤ) (w perPage : ℕ)

/-- The next step of thread `t`, which makes `call` if it is outside of a call. -/
def step (s : LFThreads T) (t : T) (call : LFCall) : Except Stop (LFThreads T) :=
  match s.phase t with
  | .idle | .inserted _ _ | .answered _ _ _ =>
    match call with
    | .insert oid =>
      .ok ({ s with lf := { s.lf with numElements := s.lf.numElements + 1 } }.enter t
        (.setting (s.lf.numElements % 2 ^ w) oid))
    | .getIndex oid =>
      let index := s.lf.home hash oid
      .ok (s.enter t (.seeking oid (.get index (numGet perPage s.lf index)) index s.done))
  | .setting ind oid => do
    let lf ← s.lf.setKey ind oid
    let index := s.lf.home hash oid
    return { s with lf := lf }.enter t (.probing ind oid (.get index (restOfPage perPage index)) index)
  | .probing ind oid items index => do
    let items := items.upTo (restOfPage perPage) index
    let place ← s.lf.place items index
    if (s.lf.indices place).index = sentinel w then
      return { s with lf := s.lf.setItem place { s.lf.indices place with index := ind } }.enter t (.writing ind oid place)
    return s.enter t (.probing ind oid items ((index + 1) % s.lf.numSlotsMinusOne))
  | .writing ind oid place =>
    .ok ({ s with
      lf := s.lf.setItem place { s.lf.indices place with key := oid }
      done := update s.done ind (some oid) }.enter t (.inserted ind oid))
  | .seeking oid items index before => do
    let items := items.upTo (numGet perPage s.lf) index
    let place ← s.lf.place items index
    if (s.lf.indices place).index = sentinel w then return s.enter t (.answered oid none before)
    return s.enter t (.comparing oid items index place before)
  | .comparing oid items index place before =>
    if (s.lf.indices place).key = oid then .ok (s.enter t (.reading oid place before))
    else .ok (s.enter t (.seeking oid items ((index + 1) % s.lf.numSlotsMinusOne) before))
  | .reading oid place before => .ok (s.enter t (.answered oid (some (s.lf.indices place).index) before))

/-- The thread may make the step: there is an index left, and room for the key, where it calls `insert`. -/
def Allowed (s : LFThreads T) (call : LFCall) : Prop :=
  ∀ oid, call = .insert oid → s.lf.numElements < min s.lf.keysSize (sentinel w)

/-- A table that is sound, with all threads outside of calls. -/
def Init (s : LFThreads T) : Prop :=
  Sound hash w s.lf ∧ (∀ t, s.phase t = .idle) ∧
    s.done = fun ind => if ind < s.lf.numElements then some (s.lf.keys ind) else none

/-- Any interleaving of the steps of the threads. -/
abbrev Run (s : LFThreads T) : Prop :=
  Reach (Init hash w) (fun s s' => ∃ t call, s.Allowed w call ∧ s.step hash w perPage t call = .ok s') s

end model

variable {hash : Hashing ℤ} {w perPage : ℕ} {s s' : LFThreads T} {t : T} {phase : LFPhase}

/-- The insertions of a key that had returned are ahead of a lookup. -/
def Ahead (w : ℕ) (s : LFThreads T) (before : ℕ → Option ℤ) (oid : ℤ) (index : ℕ) : Prop :=
  ∀ ind, before ind = some oid → s.done ind = some oid ∧ ∃ p, s.lf.indices p = ⟨ind, oid⟩ ∧ s.lf.Way w index p

/-- What a thread knows in a phase. -/
def At (hash : Hashing ℤ) (w : ℕ) (s : LFThreads T) : LFPhase → Prop
  | .idle => True
  | .setting ind _ => ind < s.lf.numElements
  | .probing ind oid items index => ind < s.lf.numElements ∧ s.lf.keys ind = oid ∧ index ≤ s.lf.numSlotsMinusOne ∧
      items.Good ∧ s.lf.Way w (s.lf.home hash oid) index
  | .writing ind oid place => ind < s.lf.numElements ∧ s.lf.keys ind = oid ∧ (s.lf.indices place).index = ind
  | .inserted ind oid => s.done ind = some oid
  | .seeking oid items index before => index ≤ s.lf.numSlotsMinusOne ∧ items.Good ∧ s.Ahead w before oid index
  | .comparing oid items index place before => index ≤ s.lf.numSlotsMinusOne ∧ items.Good ∧ place = index ∧
      s.lf.Claimed w index ∧ s.Ahead w before oid index
  | .reading oid place _ => s.lf.Claimed w place ∧ (oid ≠ 0 → s.lf.keys (s.lf.indices place).index = oid)
  | .answered oid none before => ∀ ind, before ind ≠ some oid
  | .answered oid (some ret) _ => ∃ p, s.lf.Claimed w p ∧ (s.lf.indices p).index = ret ∧ (oid ≠ 0 → s.lf.keys ret = oid)

/-- Every entry lies on the way of its key and shows it, or 0 as long as its insertion is about to write it. -/
structure Inv (hash : Hashing ℤ) (w : ℕ) (s : LFThreads T) : Prop extends Shape hash s.lf where
  fits : s.lf.numElements ≤ sentinel w
  room : s.lf.numElements ≤ s.lf.keysSize
  placed : ∀ p, s.lf.Claimed w p → s.lf.Way w (s.lf.home hash (s.lf.keys (s.lf.indices p).index)) p
  keyed : ∀ p, s.lf.Claimed w p → (s.lf.indices p).index < s.lf.numElements ∧
    ((s.lf.indices p).key = s.lf.keys (s.lf.indices p).index ∨
      (s.lf.indices p).key = 0 ∧ ∃ t oid, s.phase t = .writing (s.lf.indices p).index oid p)
  free : ∀ p, ¬ s.lf.Claimed w p → (s.lf.indices p).key = 0
  stored : ∀ ind < s.lf.numElements, (∃ oid, s.done ind = some oid) ∨ ∃ t, (s.phase t).owned = some ind
  returned : ∀ ind oid, s.done ind = some oid →
    ind < s.lf.numElements ∧ s.lf.keys ind = oid ∧ ∃ p, s.lf.indices p = ⟨ind, oid⟩
  pending : ∀ t ind, (s.phase t).pending = some ind → ∀ p, (s.lf.indices p).index ≠ ind
  owned : ∀ t ind, (s.phase t).owned = some ind → s.done ind = none
  distinct : ∀ t u ind, (s.phase t).inserts = some ind → (s.phase u).inserts = some ind → t = u
  thread : ∀ t, s.At hash w (s.phase t)

/-- What no step takes away from another thread. -/
structure Grown (w : ℕ) (s s' : LFThreads T) : Prop where
  slots : s'.lf.numSlotsMinusOne = s.lf.numSlotsMinusOne
  modulus : s'.lf.modulus = s.lf.modulus
  count : s.lf.numElements ≤ s'.lf.numElements
  index : ∀ p, s.lf.Claimed w p → (s'.lf.indices p).index = (s.lf.indices p).index
  entry : ∀ p ind oid, s.done ind = some oid → s.lf.indices p = ⟨ind, oid⟩ → s'.lf.indices p = ⟨ind, oid⟩
  keys : ∀ p, s.lf.Claimed w p → s'.lf.keys (s.lf.indices p).index = s.lf.keys (s.lf.indices p).index
  done : ∀ ind oid, s.done ind = some oid → s'.done ind = some oid

section frame

omit [DecidableEq T]

theorem Grown.claimed (grown : Grown w s s') (p : ℕ) (claimed : s.lf.Claimed w p) : s'.lf.Claimed w p := by
  rw [Claimed, grown.index p claimed]
  exact claimed

theorem Grown.way (grown : Grown w s s') {a b : ℕ} (way : s.lf.Way w a b) : s'.lf.Way w a b := by
  rw [Way, grown.slots]
  exact way.mono grown.claimed

theorem Grown.home (grown : Grown w s s') (oid : ℤ) : s'.lf.home hash oid = s.lf.home hash oid := by
  rw [LFIndexer.home, grown.modulus, LFIndexer.home]

theorem Grown.ahead (grown : Grown w s s') {before : ℕ → Option ℤ} {oid : ℤ} {index : ℕ}
    (ahead : s.Ahead w before oid index) : s'.Ahead w before oid index := by
  intro ind known
  obtain ⟨done, p, entry, way⟩ := ahead ind known
  exact ⟨grown.done ind oid done, p, grown.entry p ind oid done entry, grown.way way⟩

theorem claimed_of_index {ind p : ℕ} (fits : s.lf.numElements ≤ sentinel w) (below : ind < s.lf.numElements)
    (here : (s.lf.indices p).index = ind) : s.lf.Claimed w p := by
  rw [Claimed, here]
  omega

/-- What a thread knows stays true, if the key of its own insertion does. -/
theorem Grown.at (grown : Grown w s s') (fits : s.lf.numElements ≤ sentinel w)
    (own : ∀ ind, phase.owned = some ind → s'.lf.keys ind = s.lf.keys ind) (knows : s.At hash w phase) :
    s'.At hash w phase := by
  have count := grown.count
  cases phase with
  | idle => trivial
  | setting ind oid => exact Nat.lt_of_lt_of_le knows count
  | probing ind oid items index =>
    obtain ⟨below, key, bound, good, way⟩ := knows
    refine ⟨below.trans_le count, (own ind rfl).trans key, bound.trans_eq grown.slots.symm, good, ?_⟩
    rw [grown.home]
    exact grown.way way
  | writing ind oid place =>
    obtain ⟨below, key, here⟩ := knows
    exact ⟨below.trans_le count, (own ind rfl).trans key, (grown.index place (claimed_of_index fits below here)).trans here⟩
  | inserted ind oid => exact grown.done ind oid knows
  | seeking oid items index before =>
    obtain ⟨bound, good, ahead⟩ := knows
    exact ⟨bound.trans_eq grown.slots.symm, good, grown.ahead ahead⟩
  | comparing oid items index place before =>
    obtain ⟨bound, good, same, claimed, ahead⟩ := knows
    exact ⟨bound.trans_eq grown.slots.symm, good, same, grown.claimed _ claimed, grown.ahead ahead⟩
  | reading oid place before =>
    obtain ⟨claimed, key⟩ := knows
    refine ⟨grown.claimed _ claimed, fun real => ?_⟩
    rw [grown.index _ claimed, grown.keys _ claimed]
    exact key real
  | answered oid ret before =>
    cases ret with
    | none => exact knows
    | some ret =>
      obtain ⟨p, claimed, rfl, key⟩ := knows
      refine ⟨p, grown.claimed p claimed, grown.index p claimed, fun real => ?_⟩
      rw [grown.keys p claimed]
      exact key real

/-- The indices of the insertions were given out. -/
theorem Inv.inserts_lt (inv : s.Inv hash w) {ind : ℕ} (inserts : (s.phase t).inserts = some ind) :
    ind < s.lf.numElements := by
  have knows := inv.thread t
  cases here : s.phase t with
  | setting | probing | writing =>
    rw [here] at inserts knows
    cases inserts
    first | exact knows | exact knows.1
  | inserted =>
    rw [here] at inserts knows
    cases inserts
    exact (inv.returned _ _ knows).1
  | idle | seeking | comparing | reading | answered =>
    rw [here] at inserts
    cases inserts

end frame

/-- A property of the phase of the thread that moves and of those of the others. -/
theorem forall_phase (P : LFPhase → Prop) (here : P phase) (others : ∀ u ≠ t, P (s.phase u)) (u : T) :
    P (update s.phase t phase u) :=
  (Function.forall_update_iff s.phase fun _ phase => P phase).mpr ⟨here, others⟩ u

theorem distinct_update (distinct : ∀ t u ind, (s.phase t).inserts = some ind → (s.phase u).inserts = some ind → t = u)
    (new : ∀ ind, phase.inserts = some ind → ∀ u ≠ t, (s.phase u).inserts ≠ some ind) (u v : T) (ind : ℕ)
    (here : (update s.phase t phase u).inserts = some ind) (there : (update s.phase t phase v).inserts = some ind) :
    u = v := by
  rcases eq_or_ne u t with rfl | apart
  · rw [update_self] at here
    by_contra other
    rw [update_of_ne (Ne.symm other)] at there
    exact new ind here v (Ne.symm other) there
  · rw [update_of_ne apart] at here
    rcases eq_or_ne v t with rfl | apart'
    · rw [update_self] at there
      exact absurd here (new ind there u apart)
    · rw [update_of_ne apart'] at there
      exact distinct u v ind here there

/-- The last step of an insertion by another thread is still to come. -/
theorem writing_update {ind p : ℕ} (writing : ∃ u oid, s.phase u = .writing ind oid p)
    (other : ∀ oid, s.phase t ≠ .writing ind oid p) : ∃ u oid, update s.phase t phase u = .writing ind oid p := by
  obtain ⟨u, oid, writing⟩ := writing
  have apart : u ≠ t := by
    rintro rfl
    exact other oid writing
  exact ⟨u, oid, (update_of_ne apart ..).trans writing⟩

theorem owned_update {ind : ℕ} (owned : ∃ u, (s.phase u).owned = some ind)
    (here : (s.phase t).owned = some ind → phase.owned = some ind) : ∃ u, (update s.phase t phase u).owned = some ind := by
  obtain ⟨u, owned⟩ := owned
  refine ⟨u, ?_⟩
  rcases eq_or_ne u t with rfl | apart
  · rw [update_self]
    exact here owned
  · rwa [update_of_ne apart]

/-- A step of a thread for itself, outside the last step of an insertion. -/
theorem Inv.enter (inv : s.Inv hash w) (pending : ∀ ind, phase.pending = some ind → (s.phase t).pending = some ind)
    (owned : phase.owned = (s.phase t).owned) (inserts : ∀ ind, phase.inserts = some ind → (s.phase t).inserts = some ind)
    (other : ∀ ind oid p, s.phase t ≠ .writing ind oid p) (knows : s.At hash w phase) : (s.enter t phase).Inv hash w where
  toShape := inv.toShape
  fits := inv.fits
  room := inv.room
  placed := inv.placed
  keyed := by
    intro p claimed
    obtain ⟨below, key⟩ := inv.keyed p claimed
    exact ⟨below, key.imp_right fun ⟨early, writing⟩ => ⟨early, writing_update writing fun oid => other _ oid p⟩⟩
  free := inv.free
  stored := fun ind below => (inv.stored ind below).imp_right fun owns => owned_update owns fun here => owned.trans here
  returned := inv.returned
  pending := forall_phase (fun phase => ∀ ind, phase.pending = some ind → ∀ p, (s.lf.indices p).index ≠ ind)
    (fun ind here => inv.pending t ind (pending ind here)) fun u _ => inv.pending u
  owned := forall_phase (fun phase => ∀ ind, phase.owned = some ind → s.done ind = none)
    (fun ind here => inv.owned t ind (owned ▸ here)) fun u _ => inv.owned u
  distinct := distinct_update inv.distinct fun ind here u apart there =>
    apart (inv.distinct u t ind there (inserts ind here))
  thread := forall_phase (s.At hash w) knows fun u _ => inv.thread u

/-- An insertion gets its index. -/
theorem Inv.count (inv : s.Inv hash w) (idle : (s.phase t).owned = none)
    (free : s.lf.numElements < min s.lf.keysSize (sentinel w)) (oid : ℤ) :
    ({ s with lf := { s.lf with numElements := s.lf.numElements + 1 } }.enter t
      (.setting s.lf.numElements oid)).Inv hash w := by
  have grown : Grown w s ({ s with lf := { s.lf with numElements := s.lf.numElements + 1 } }.enter t
      (.setting s.lf.numElements oid)) :=
    ⟨rfl, rfl, Nat.le_succ _, fun _ _ => rfl, fun _ _ _ _ entry => entry, fun _ _ => rfl, fun _ _ done => done⟩
  refine ⟨⟨inv.ring, inv.inside, inv.small, inv.bound⟩, ?_, ?_, inv.placed, ?_, inv.free, ?_, ?_, ?_, ?_, ?_, ?_⟩
  · exact Nat.succ_le_of_lt (free.trans_le (min_le_right ..))
  · exact Nat.succ_le_of_lt (free.trans_le (min_le_left ..))
  · intro p claimed
    obtain ⟨below, key⟩ := inv.keyed p claimed
    refine ⟨below.trans (Nat.lt_succ_self _), key.imp_right fun ⟨early, writing⟩ => ⟨early, writing_update writing ?_⟩⟩
    intro oid here
    rw [here] at idle
    cases idle
  · intro ind below
    rcases Nat.lt_succ_iff_lt_or_eq.mp below with before | rfl
    · exact (inv.stored ind before).imp_right fun owns => owned_update owns fun here => by cases here.symm.trans idle
    · refine Or.inr ⟨t, ?_⟩
      change (update s.phase t _ t).owned = _
      rw [update_self]
      rfl
  · intro ind oid done
    obtain ⟨below, key, entry⟩ := inv.returned ind oid done
    exact ⟨below.trans (Nat.lt_succ_self _), key, entry⟩
  · apply forall_phase fun phase => ∀ ind, phase.pending = some ind → ∀ p, (s.lf.indices p).index ≠ ind
    · rintro _ ⟨⟩ p same
      have claimed : s.lf.Claimed w p := by
        rw [Claimed, same]
        exact (free.trans_le (min_le_right ..)).ne
      exact (inv.keyed p claimed).1.ne same
    · exact fun u _ => inv.pending u
  · apply forall_phase fun phase => ∀ ind, phase.owned = some ind → s.done ind = none
    · rintro _ ⟨⟩
      rw [Option.eq_none_iff_forall_ne_some]
      exact fun oid done => (inv.returned _ oid done).1.ne rfl
    · exact fun u _ => inv.owned u
  · apply distinct_update inv.distinct
    rintro _ ⟨⟩ u _ inserts
    exact (inv.inserts_lt inserts).ne rfl
  · apply forall_phase
    · exact Nat.lt_succ_self s.lf.numElements
    · exact fun u _ => grown.at inv.fits (fun _ _ => rfl) (inv.thread u)

/-- An insertion writes its key to `keys_`. -/
theorem Inv.set (inv : s.Inv hash w) {ind : ℕ} {oid : ℤ} (here : s.phase t = .setting ind oid) {items : Items}
    (good : items.Good) : ({ s with lf := { s.lf with keys := update s.lf.keys ind oid } }.enter t
      (.probing ind oid items (s.lf.home hash oid))).Inv hash w := by
  have below : ind < s.lf.numElements := by
    have knows := inv.thread t
    rwa [here] at knows
  have pending := inv.pending t ind (by rw [here]; rfl)
  have fresh := inv.owned t ind (by rw [here]; rfl)
  have others (u : T) (apart : u ≠ t) (i : ℕ) (inserts : (s.phase u).inserts = some i) : i ≠ ind := by
    rintro rfl
    exact apart (inv.distinct u t i inserts (by rw [here]; rfl))
  have kept {i : ℕ} (apart : i ≠ ind) : update s.lf.keys ind oid i = s.lf.keys i := update_of_ne apart ..
  have grown : Grown w s ({ s with lf := { s.lf with keys := update s.lf.keys ind oid } }.enter t
      (.probing ind oid items (s.lf.home hash oid))) :=
    ⟨rfl, rfl, le_rfl, fun _ _ => rfl, fun _ _ _ _ entry => entry, fun p _ => kept (pending p), fun _ _ done => done⟩
  refine ⟨⟨inv.ring, inv.inside, inv.small, inv.bound⟩, inv.fits, inv.room, ?_, ?_, inv.free, ?_, ?_, ?_, ?_, ?_, ?_⟩
  · intro p claimed
    change s.lf.Way w (s.lf.home hash (update s.lf.keys ind oid (s.lf.indices p).index)) p
    rw [kept (pending p)]
    exact inv.placed p claimed
  · intro p claimed
    obtain ⟨below, key⟩ := inv.keyed p claimed
    refine ⟨below, key.imp (fun shown => shown.trans (kept (pending p)).symm) fun ⟨early, writing⟩ =>
      ⟨early, writing_update writing fun oid other => ?_⟩⟩
    cases here.symm.trans other
  · exact fun i lower => (inv.stored i lower).imp_right fun owns => owned_update owns fun same => by rwa [here] at same
  · intro i oid' done
    obtain ⟨lower, key, entry⟩ := inv.returned i oid' done
    have apart : i ≠ ind := by
      rintro rfl
      cases done.symm.trans fresh
    exact ⟨lower, (kept apart).trans key, entry⟩
  · apply forall_phase fun phase => ∀ ind, phase.pending = some ind → ∀ p, (s.lf.indices p).index ≠ ind
    · rintro _ ⟨⟩
      exact pending
    · exact fun u _ => inv.pending u
  · apply forall_phase fun phase => ∀ ind, phase.owned = some ind → s.done ind = none
    · rintro _ ⟨⟩
      exact fresh
    · exact fun u _ => inv.owned u
  · apply distinct_update inv.distinct
    rintro _ ⟨⟩ u apart inserts
    exact others u apart _ inserts rfl
  · apply forall_phase
    · exact ⟨below, update_self .., inv.bound oid, good, .here _⟩
    · intro u apart
      exact grown.at inv.fits (fun i owned => kept (others u apart i (LFPhase.inserts_of_owned owned))) (inv.thread u)

/-- An insertion takes a free slot. -/
theorem Inv.claim (inv : s.Inv hash w) {ind place : ℕ} {oid : ℤ} {items : Items}
    (here : s.phase t = .probing ind oid items place) (free : ¬ s.lf.Claimed w place) :
    ({ s with lf := s.lf.setItem place ⟨ind, (s.lf.indices place).key⟩ }.enter t
      (.writing ind oid place)).Inv hash w := by
  have knows := inv.thread t
  rw [here] at knows
  obtain ⟨below, key, bound, _, way⟩ := knows
  have fresh := inv.owned t ind (by rw [here]; rfl)
  have others (u : T) (apart : u ≠ t) (i : ℕ) (inserts : (s.phase u).inserts = some i) : i ≠ ind := by
    rintro rfl
    exact apart (inv.distinct u t i inserts (by rw [here]; rfl))
  have real : ind ≠ sentinel w := (below.trans_le inv.fits).ne
  have claimed (p : ℕ) := @claimed_setItem w s.lf place ⟨ind, (s.lf.indices place).key⟩ real p
  have apart {p : ℕ} (taken : s.lf.Claimed w p) : p ≠ place := by
    rintro rfl
    exact free taken
  have kept {p : ℕ} (apart : p ≠ place) :
      (s.lf.setItem place ⟨ind, (s.lf.indices place).key⟩).indices p = s.lf.indices p := update_of_ne apart ..
  have put : (s.lf.setItem place ⟨ind, (s.lf.indices place).key⟩).indices place =
      ⟨ind, (s.lf.indices place).key⟩ := update_self ..
  have grown : Grown w s ({ s with lf := s.lf.setItem place ⟨ind, (s.lf.indices place).key⟩ }.enter t
      (.writing ind oid place)) := by
    refine ⟨rfl, rfl, le_rfl, fun p taken => congrArg _ (kept (apart taken)), fun p i oid' done entry => ?_,
      fun _ _ => rfl, fun _ _ done => done⟩
    refine (kept (apart ?_)).trans entry
    exact claimed_of_index inv.fits (inv.returned i oid' done).1 (congrArg IndexKeyItem.index entry)
  refine ⟨⟨inv.ring, inv.inside, inv.small, inv.bound⟩, inv.fits, inv.room, ?_, ?_, ?_, ?_, ?_, ?_, ?_, ?_, ?_⟩
  · intro p taken
    dsimp only [LFThreads.enter]
    rcases eq_or_ne p place with rfl | other
    · rw [put]
      dsimp only
      change Way w _ (s.lf.home hash (s.lf.keys ind)) p
      rw [key]
      exact grown.way way
    · rw [kept other]
      exact grown.way (inv.placed p (((claimed p).mp taken).resolve_right other))
  · intro p taken
    dsimp only [LFThreads.enter]
    rcases eq_or_ne p place with rfl | other
    · rw [put]
      exact ⟨below, Or.inr ⟨inv.free p free, t, oid, update_self ..⟩⟩
    · rw [kept other]
      obtain ⟨lower, shown⟩ := inv.keyed p (((claimed p).mp taken).resolve_right other)
      refine ⟨lower, shown.imp_right fun ⟨early, writing⟩ => ⟨early, writing_update writing fun oid' same => ?_⟩⟩
      cases here.symm.trans same
  · intro p untaken
    dsimp only [LFThreads.enter]
    have other : p ≠ place := fun same => untaken ((claimed p).mpr (Or.inr same))
    rw [kept other]
    exact inv.free p fun before => untaken ((claimed p).mpr (Or.inl before))
  · exact fun i lower => (inv.stored i lower).imp_right fun owns => owned_update owns fun same => by rwa [here] at same
  · intro i oid' done
    obtain ⟨lower, key', p, entry⟩ := inv.returned i oid' done
    exact ⟨lower, key', p, grown.entry p i oid' done entry⟩
  · intro u i pends p
    dsimp only [LFThreads.enter] at pends ⊢
    rcases eq_or_ne u t with rfl | away
    · rw [update_self] at pends
      cases pends
    · rw [update_of_ne away] at pends
      rcases eq_or_ne p place with rfl | other
      · rw [put]
        exact (others u away i (LFPhase.inserts_of_owned (LFPhase.owned_of_pending pends))).symm
      · rw [kept other]
        exact inv.pending u i pends p
  · apply forall_phase fun phase => ∀ ind, phase.owned = some ind → s.done ind = none
    · rintro _ ⟨⟩
      exact fresh
    · exact fun u _ => inv.owned u
  · apply distinct_update inv.distinct
    rintro _ ⟨⟩ u away inserts
    exact others u away _ inserts rfl
  · apply forall_phase
    · exact ⟨below, key, congrArg IndexKeyItem.index put⟩
    · exact fun u _ => grown.at inv.fits (fun _ _ => rfl) (inv.thread u)

/-- An insertion writes its key to its slot, and returns. -/
theorem Inv.write (inv : s.Inv hash w) {ind place : ℕ} {oid : ℤ} (here : s.phase t = .writing ind oid place) :
    ({ s with
      lf := s.lf.setItem place ⟨(s.lf.indices place).index, oid⟩
      done := update s.done ind (some oid) }.enter t (.inserted ind oid)).Inv hash w := by
  have knows := inv.thread t
  rw [here] at knows
  obtain ⟨below, key, index⟩ := knows
  have fresh := inv.owned t ind (by rw [here]; rfl)
  have others (u : T) (apart : u ≠ t) (i : ℕ) (inserts : (s.phase u).inserts = some i) : i ≠ ind := by
    rintro rfl
    exact apart (inv.distinct u t i inserts (by rw [here]; rfl))
  have taken : s.lf.Claimed w place := claimed_of_index inv.fits below index
  have kept {p : ℕ} (apart : p ≠ place) :
      (s.lf.setItem place ⟨(s.lf.indices place).index, oid⟩).indices p = s.lf.indices p := update_of_ne apart ..
  have put : (s.lf.setItem place ⟨(s.lf.indices place).index, oid⟩).indices place = ⟨ind, oid⟩ := by
    rw [← index]
    exact update_self ..
  have same (p : ℕ) : ((s.lf.setItem place ⟨(s.lf.indices place).index, oid⟩).indices p).index =
      (s.lf.indices p).index := by
    rcases eq_or_ne p place with rfl | apart
    · rw [put, index]
    · rw [kept apart]
  have before {i : ℕ} {oid' : ℤ} (done : s.done i = some oid') : i ≠ ind := by
    rintro rfl
    cases done.symm.trans fresh
  have grown : Grown w s ({ s with
      lf := s.lf.setItem place ⟨(s.lf.indices place).index, oid⟩
      done := update s.done ind (some oid) }.enter t (.inserted ind oid)) := by
    refine ⟨rfl, rfl, le_rfl, fun p _ => same p, fun p i oid' done entry => ?_, fun _ _ => rfl, fun i oid' done =>
      (update_of_ne (before done) ..).trans done⟩
    refine (kept ?_).trans entry
    rintro rfl
    exact before done ((congrArg IndexKeyItem.index entry).symm.trans index)
  have claimed (p : ℕ) (after : (s.lf.setItem place ⟨(s.lf.indices place).index, oid⟩).Claimed w p) :
      s.lf.Claimed w p := by
    rwa [Claimed, same] at after
  refine ⟨⟨inv.ring, inv.inside, inv.small, inv.bound⟩, inv.fits, inv.room, ?_, ?_, ?_, ?_, ?_, ?_, ?_, ?_, ?_⟩
  · intro p after
    dsimp only [LFThreads.enter]
    rw [same]
    exact grown.way (inv.placed p (claimed p after))
  · intro p after
    dsimp only [LFThreads.enter]
    obtain ⟨lower, shown⟩ := inv.keyed p (claimed p after)
    rcases eq_or_ne p place with rfl | apart
    · rw [put]
      exact ⟨below, Or.inl key.symm⟩
    · rw [kept apart]
      refine ⟨lower, shown.imp_right ?_⟩
      rintro ⟨early, writing⟩
      refine ⟨early, writing_update writing fun oid' there => ?_⟩
      cases here.symm.trans there
      exact apart rfl
  · intro p untaken
    dsimp only [LFThreads.enter]
    have apart : p ≠ place := by
      rintro rfl
      exact untaken (grown.claimed p taken)
    rw [kept apart]
    exact inv.free p fun before => untaken (grown.claimed p before)
  · intro i lower
    dsimp only [LFThreads.enter]
    rcases eq_or_ne i ind with rfl | apart
    · exact Or.inl ⟨oid, update_self ..⟩
    · rw [update_of_ne apart]
      refine (inv.stored i lower).imp_right fun owns => owned_update owns fun own => ?_
      rw [here] at own
      exact absurd (Option.some.inj own).symm apart
  · intro i oid' done
    dsimp only [LFThreads.enter] at done ⊢
    rcases eq_or_ne i ind with rfl | apart
    · obtain rfl := Option.some.inj ((update_self i (some oid) s.done).symm.trans done)
      exact ⟨below, key, place, put⟩
    · rw [update_of_ne apart] at done
      obtain ⟨lower, key', p, entry⟩ := inv.returned i oid' done
      exact ⟨lower, key', p, grown.entry p i oid' done entry⟩
  · intro u i pends p
    dsimp only [LFThreads.enter] at pends ⊢
    rcases eq_or_ne u t with rfl | away
    · rw [update_self] at pends
      cases pends
    · rw [update_of_ne away] at pends
      rw [same]
      exact inv.pending u i pends p
  · intro u i owns
    dsimp only [LFThreads.enter] at owns ⊢
    rcases eq_or_ne u t with rfl | away
    · rw [update_self] at owns
      cases owns
    · rw [update_of_ne away] at owns
      rw [update_of_ne (others u away i (LFPhase.inserts_of_owned owns))]
      exact inv.owned u i owns
  · apply distinct_update inv.distinct
    rintro _ ⟨⟩ u away inserts
    exact others u away _ inserts rfl
  · apply forall_phase
    · exact update_self ..
    · exact fun u _ => grown.at inv.fits (fun _ _ => rfl) (inv.thread u)

/-- A step of a lookup. -/
theorem Inv.look (inv : s.Inv hash w) (quiet : (s.phase t).inserts = none) (quiet' : phase.inserts = none)
    (knows : s.At hash w phase) : (s.enter t phase).Inv hash w := by
  have none {phase : LFPhase} (quiet : phase.inserts = none) : phase.owned = none := by
    rw [Option.eq_none_iff_forall_ne_some]
    intro ind owned
    cases (LFPhase.inserts_of_owned owned).symm.trans quiet
  refine inv.enter (fun ind pending => ?_) ((none quiet').trans (none quiet).symm) (fun ind inserts => ?_)
    (fun ind oid p other => ?_) knows
  · cases (LFPhase.owned_of_pending pending).symm.trans (none quiet')
  · cases inserts.symm.trans quiet'
  · rw [other] at quiet
    cases quiet

theorem restOfPage_pos (page : 0 < perPage) (index : ℕ) : 0 < restOfPage perPage index := by
  have := Nat.mod_lt index page
  rw [restOfPage]
  omega

omit [DecidableEq T] in
/-- The first slot of a lookup. -/
theorem Inv.ahead (inv : s.Inv hash w) (oid : ℤ) : s.Ahead w s.done oid (s.lf.home hash oid) := by
  intro ind done
  obtain ⟨below, key, p, entry⟩ := inv.returned ind oid done
  have index : (s.lf.indices p).index = ind := congrArg IndexKeyItem.index entry
  have way := inv.placed p (claimed_of_index inv.fits below index)
  rw [index, key] at way
  exact ⟨done, p, entry, way⟩

/-- A thread that is outside of a call makes one. -/
theorem Inv.call (inv : s.Inv hash w) (call : LFCall) (allowed : s.Allowed w call)
    (owned : (s.phase t).owned = none) : ∃ s', (match call with
      | .insert oid => Except.ok ({ s with lf := { s.lf with numElements := s.lf.numElements + 1 } }.enter t
          (.setting (s.lf.numElements % 2 ^ w) oid))
      | .getIndex oid =>
        .ok (s.enter t (.seeking oid (.get (s.lf.home hash oid) (numGet perPage s.lf (s.lf.home hash oid)))
          (s.lf.home hash oid) s.done)) : Except Stop (LFThreads T)) = .ok s' ∧ s'.Inv hash w := by
  cases call with
  | insert oid =>
    have free := allowed oid rfl
    refine ⟨_, rfl, ?_⟩
    have fits : s.lf.numElements < 2 ^ w := by
      have := free.trans_le (min_le_right ..)
      rw [sentinel] at this
      omega
    rw [Nat.mod_eq_of_lt fits]
    exact inv.count owned free oid
  | getIndex oid =>
    refine ⟨_, rfl, inv.enter (by rintro _ ⟨⟩) owned.symm (by rintro _ ⟨⟩) ?_ ⟨inv.bound oid, ?_, inv.ahead oid⟩⟩
    · intro ind oid p here
      rw [here] at owned
      cases owned
    · exact Items.good_get ((inv.bound oid).trans_lt (inv.inside.trans_le inv.small)) _

/-- A step never leaves the arrays, and keeps the invariant. -/
theorem Inv.step (inv : s.Inv hash w) (page : 0 < perPage) (t : T) (call : LFCall) (allowed : s.Allowed w call) :
    ∃ s', s.step hash w perPage t call = .ok s' ∧ s'.Inv hash w := by
  have knows := inv.thread t
  have inRange {index : ℕ} (bound : index ≤ s.lf.numSlotsMinusOne) : index < 2 ^ 32 :=
    bound.trans_lt (inv.inside.trans_le inv.small)
  unfold LFThreads.step
  cases here : s.phase t with
  | idle | inserted | answered => exact inv.call call allowed (by rw [here]; rfl)
  | setting ind oid =>
    rw [here] at knows
    have room : ind < s.lf.keysSize := Nat.lt_of_lt_of_le knows inv.room
    simp only [setKey, if_pos room, ok_bind]
    exact ⟨_, rfl, inv.set here (Items.good_get (inRange (inv.bound oid)) _)⟩
  | probing ind oid items index =>
    rw [here] at knows
    obtain ⟨below, key, bound, good, way⟩ := knows
    simp only [inv.toShape.place_upTo good bound (restOfPage_pos page index), ok_bind]
    split_ifs with free
    · exact ⟨_, rfl, inv.claim here (not_not_intro free)⟩
    · refine ⟨_, rfl, inv.enter (fun ind' same => ?_) ?_ (fun ind' same => ?_) (fun _ _ _ other => ?_)
        ⟨below, key, inv.toShape.succ_le index, good.upTo (inRange bound), way.onward free⟩⟩
      · rwa [here]
      · rw [here]
        rfl
      · rwa [here]
      · cases here.symm.trans other
  | writing ind oid place => exact ⟨_, rfl, inv.write here⟩
  | seeking oid items index before =>
    rw [here] at knows
    obtain ⟨bound, good, ahead⟩ := knows
    have quiet : (s.phase t).inserts = none := by rw [here]; rfl
    simp only [inv.toShape.place_upTo good bound (inv.toShape.numGet_pos page bound), ok_bind]
    split_ifs with free
    · refine ⟨_, rfl, inv.look quiet rfl fun ind known => ?_⟩
      obtain ⟨done, p, entry, way⟩ := ahead ind known
      obtain rfl := way.eq_of_free (not_not_intro free)
      have below := (inv.returned ind oid done).1
      exact claimed_of_index inv.fits below (congrArg IndexKeyItem.index entry) free
    · exact ⟨_, rfl, inv.look quiet rfl ⟨bound, good.upTo (inRange bound), rfl, free, ahead⟩⟩
  | comparing oid items index place before =>
    rw [here] at knows
    obtain ⟨bound, good, rfl, claimed, ahead⟩ := knows
    have quiet : (s.phase t).inserts = none := by rw [here]; rfl
    dsimp only
    split_ifs with same
    · refine ⟨_, rfl, inv.look quiet rfl ⟨claimed, fun real => ?_⟩⟩
      rcases (inv.keyed place claimed).2 with shown | ⟨early, _⟩
      · exact shown.symm.trans same
      · exact absurd (same.symm.trans early) real
    · refine ⟨_, rfl, inv.look quiet rfl ⟨inv.toShape.succ_le place, good, fun ind known => ?_⟩⟩
      obtain ⟨done, p, entry, way⟩ := ahead ind known
      have apart : place ≠ p := by
        rintro rfl
        exact same (congrArg IndexKeyItem.key entry)
      exact ⟨done, p, entry, (way.next_of_ne apart).2⟩
  | reading oid place before =>
    rw [here] at knows
    obtain ⟨claimed, key⟩ := knows
    exact ⟨_, rfl, inv.look (by rw [here]; rfl) rfl ⟨place, claimed, rfl, key⟩⟩

omit [DecidableEq T] in
theorem Init.inv (start : s.Init hash w) : s.Inv hash w := by
  obtain ⟨sound, idle, done⟩ := start
  have known (ind : ℕ) (below : ind < s.lf.numElements) : s.done ind = some (s.lf.keys ind) := by
    rw [done]
    exact if_pos below
  refine ⟨sound.toShape, sound.fits, sound.room, fun p claimed => ?_, fun p claimed => ?_, sound.free,
    fun ind below => Or.inl ⟨_, known ind below⟩, fun ind oid returned => ?_, fun t => ?_, fun t => ?_, fun t => ?_, fun t => ?_⟩
  · rw [(sound.keyed p claimed).2]
    exact sound.placed p claimed
  · obtain ⟨below, key⟩ := sound.keyed p claimed
    exact ⟨below, Or.inl key.symm⟩
  · have below : ind < s.lf.numElements := by
      by_contra beyond
      rw [done] at returned
      simp [beyond] at returned
    obtain ⟨p, entry⟩ := sound.stored ind below
    obtain rfl := Option.some.inj ((known ind below).symm.trans returned)
    exact ⟨below, rfl, p, entry⟩
  all_goals rw [idle t]
  · rintro _ ⟨⟩
  · rintro _ ⟨⟩
  · rintro _ _ ⟨⟩
  · trivial

theorem Run.inv (run : Run hash w perPage s) (page : 0 < perPage) : s.Inv hash w := by
  induction run with
  | init start => exact start.inv
  | step _ move ih =>
    obtain ⟨t, call, allowed, ran⟩ := move
    obtain ⟨s', ran', inv⟩ := ih.step page t call allowed
    cases ran.symm.trans ran'
    exact inv

omit [DecidableEq T] in
/-- With no insertion on its way the table is sound. -/
theorem Inv.sound (inv : s.Inv hash w) (quiet : ∀ t, (s.phase t).owned = none) : Sound hash w s.lf where
  toShape := inv.toShape
  fits := inv.fits
  room := inv.room
  placed := by
    intro p claimed
    rcases (inv.keyed p claimed).2 with shown | ⟨_, t, oid, writing⟩
    · rw [shown]
      exact inv.placed p claimed
    · have := quiet t
      rw [writing] at this
      cases this
  keyed := by
    intro p claimed
    obtain ⟨below, shown | ⟨_, t, oid, writing⟩⟩ := inv.keyed p claimed
    · exact ⟨below, shown.symm⟩
    · have := quiet t
      rw [writing] at this
      cases this
  stored := by
    intro ind below
    rcases inv.stored ind below with ⟨oid, done⟩ | ⟨t, owned⟩
    · obtain ⟨_, rfl, entry⟩ := inv.returned ind oid done
      exact entry
    · cases owned.symm.trans (quiet t)
  free := inv.free

/-- Whatever the threads do, no access leaves the arrays, insertions return different indices, and a lookup finds every
key whose insertion had returned before it. An index that it returns has its key, unless this is the key that free
slots show. Once no insertion is on its way, lookups find exactly the keys that were inserted. -/
theorem lf_indexer_concurrent (page : 0 < perPage) (run : Run hash w perPage s) :
    (∀ t call, s.Allowed w call → ∃ s', s.step hash w perPage t call = .ok s') ∧
    (∀ t ind oid, s.phase t = .inserted ind oid → s.lf.getKey ind = .ok oid ∧
      ∀ u oid', s.phase u = .inserted ind oid' → t = u) ∧
    (∀ t oid before, s.phase t = .answered oid none before → ∀ ind, before ind ≠ some oid) ∧
    (∀ t oid ret before, s.phase t = .answered oid (some ret) before → oid ≠ 0 → s.lf.getKey ret = .ok oid) ∧
    ((∀ t, (s.phase t).owned = none) → ∀ oid,
      ((∃ ind < s.lf.numElements, s.lf.keys ind = oid) → ∃ ret < s.lf.numElements, s.lf.keys ret = oid ∧
        Returns (s.lf.getIndex w perPage hash oid) (some ret)) ∧
      ((∀ ind < s.lf.numElements, s.lf.keys ind ≠ oid) → (∃ p < s.lf.numSlotsMinusOne, ¬ s.lf.Claimed w p) →
        Returns (s.lf.getIndex w perPage hash oid) none)) := by
  have inv := run.inv page
  have getKey {ind : ℕ} (below : ind < s.lf.numElements) : s.lf.getKey ind = .ok (s.lf.keys ind) :=
    if_pos (below.trans_le inv.room)
  refine ⟨fun t call allowed => ?_, fun t ind oid here => ?_, fun t oid before here => ?_, fun t oid ret before here real => ?_,
    fun quiet oid => ?_⟩
  · obtain ⟨s', ran, _⟩ := inv.step page t call allowed
    exact ⟨s', ran⟩
  · have knows := inv.thread t
    rw [here] at knows
    obtain ⟨below, key, _⟩ := inv.returned ind oid knows
    refine ⟨(getKey below).trans (congrArg _ key), fun u oid' there => inv.distinct t u ind ?_ ?_⟩
    · rw [here]
      rfl
    · rw [there]
      rfl
  · have knows := inv.thread t
    rwa [here] at knows
  · have knows := inv.thread t
    rw [here] at knows
    obtain ⟨p, claimed, rfl, key⟩ := knows
    exact (getKey (inv.keyed p claimed).1).trans (congrArg _ (key real))
  · have sound := inv.sound quiet
    exact ⟨fun ⟨ind, below, key⟩ => sound.getIndex_of_stored page below key, sound.getIndex_of_missing page⟩

/-- An empty table of four slots in its ring. -/
def small : LFIndexer := ⟨fun _ => 2 ^ 63 - 1, 1024, fun _ => ⟨sentinel 32, 0⟩, 9, 5, 0, 4⟩

theorem sound_small : Sound LFIndexer.plain 32 small where
  ring := by decide
  inside := by decide
  small := by decide
  bound := fun oid => Nat.le_of_lt_succ (LFIndexer.plain.indexForHash_lt 5 _ (by decide))
  fits := Nat.zero_le _
  room := Nat.zero_le _
  placed := fun p claimed => absurd rfl claimed
  keyed := fun p claimed => absurd rfl claimed
  stored := fun ind below => absurd below (Nat.not_lt_zero ind)
  free := fun _ _ => rfl

/-- While 5 has its slot but is not written there, a lookup of 0 with the same home returns the index of 5; a lookup of 5
that begins after the insertion has returned finds it. -/
theorem lf_indexer_concurrent_twoThreads : ∃ early s : LFThreads (Fin 2),
    (∃ before, early.phase 1 = .answered 0 (some 0) before) ∧ early.lf.getKey 0 = .ok 5 ∧ s.phase 0 = .inserted 0 5 ∧
    (∃ before, s.phase 1 = .answered 5 (some 0) before) ∧ s.lf.getKey 0 = .ok 5 := by
  have next {s s' : LFThreads (Fin 2)} (run : Run LFIndexer.plain 32 256 s) (t : Fin 2) (oid : ℤ)
      (ran : s.step LFIndexer.plain 32 256 t (.getIndex oid) = .ok s') : Run LFIndexer.plain 32 256 s' :=
    run.step ⟨t, .getIndex oid, (fun _ same => by cases same), ran⟩
  have start : Run LFIndexer.plain 32 256 (⟨small, fun _ => .idle, fun _ => none⟩ : LFThreads (Fin 2)) :=
    .init ⟨sound_small, fun _ => rfl, funext fun ind => (if_neg (Nat.not_lt_zero ind)).symm⟩
  have claimed := next (next (start.step ⟨0, .insert 5, fun _ _ => by decide, rfl⟩) 0 0 rfl) 0 0 rfl
  have early := next (next (next (next claimed 1 0 rfl) 1 0 rfl) 1 0 rfl) 1 0 rfl
  have found := next (next (next (next (next early 0 0 rfl) 1 5 rfl) 1 0 rfl) 1 0 rfl) 1 0 rfl
  obtain ⟨_, _, _, answers, _⟩ := lf_indexer_concurrent (by decide) found
  let state {s : LFThreads (Fin 2)} (_ : Run LFIndexer.plain 32 256 s) := s
  exact ⟨state early, state found, ⟨_, rfl⟩, rfl, rfl, ⟨_, rfl⟩, answers 1 5 0 _ rfl (by decide)⟩

end LFThreads

end Gbp
