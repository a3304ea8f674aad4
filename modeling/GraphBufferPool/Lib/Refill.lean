import Mathlib

/-! # A cache that is filled by reads

A cache has free slots, and a queue of slots in the order in which it evicts them. A read of a page that is there marks
its slot; a read of another page takes a free slot while there is one, then the head of the queue, and the slot goes
back into the queue. The others keep their order among themselves, and unmarked ones go first. Not every slot can be
evicted. Some pages can be read in any order, as often as one likes, exactly if those slots are usable that stand first
in the queue, one for each page that finds no free slot.
-/

universe u v w

namespace Refill

open Function Relation

/-- A cache; `page` is the page of a slot that a read has filled. -/
structure Cache (κ : Type u) (ι : Type v) where
  free : List κ
  queue : List κ
  marked : κ → Prop
  page : κ → Option ι
  nodup : queue.Nodup
  fresh : ∀ m ∈ free, m ∉ queue
  once : ∀ m ∈ queue, ∀ k ∈ queue, ∀ p, page m = some p → page k = some p → m = k
  first : ∀ m rest, queue = m :: rest → marked m → ∀ k ∈ rest, marked k

variable {κ : Type u} {ι : Type v}

namespace Cache

/-- The pages that have been read and are still there. -/
def held (c : Cache κ ι) : List ι := c.queue.filterMap c.page

/-- The slots in the queue that no read has filled. -/
def olds (c : Cache κ ι) : List κ := c.queue.filter fun m => (c.page m).isNone

variable {c : Cache κ ι} {m : κ} {p : ι}

theorem mem_held : p ∈ c.held ↔ ∃ m ∈ c.queue, c.page m = some p := List.mem_filterMap

theorem held_nodup (c : Cache κ ι) : c.held.Nodup := by
  have distinct := c.nodup
  have once := c.once
  rw [held]
  revert distinct once
  induction c.queue with
  | nil => exact fun _ _ => List.nodup_nil
  | cons m rest ih =>
    intro distinct once
    obtain ⟨fresh, distinct⟩ := List.nodup_cons.mp distinct
    have later := ih distinct fun k member j member' => once k (.tail _ member) j (.tail _ member')
    cases here : c.page m with
    | none => rwa [List.filterMap_cons_none here]
    | some p =>
      rw [List.filterMap_cons_some here, List.nodup_cons]
      refine ⟨fun again => ?_, later⟩
      obtain ⟨k, member, there⟩ := List.mem_filterMap.mp again
      exact fresh (once m List.mem_cons_self k (.tail _ member) p here there ▸ member)

end Cache

variable [DecidableEq κ] {usable : κ → Prop} {pages : Finset ι} {start c c' : Cache κ ι} {m : κ} {p : ι} {t : ℕ}

/-- A read of a page: its slot is marked, or a free slot is filled, or the head of the queue is. What is evicted was
unmarked, or it was found after the marks of all others were taken away. -/
inductive Read (usable : κ → Prop) (p : ι) (c c' : Cache κ ι) : Prop
  | hit {m : κ} (listed : m ∈ c.queue) (here : c.page m = some p) (free : c'.free = c.free) (page : c'.page = c.page)
      (order : c'.queue.filter (· ≠ m) = c.queue.filter (· ≠ m)) (back : m ∈ c'.queue) (marked : c'.marked m)
      (others : ∀ k ≠ m, c'.marked k ↔ c.marked k)
  | fill {m : κ} (missing : p ∉ c.held) (free : c.free = m :: c'.free) (page : c'.page = update c.page m (some p))
      (order : c'.queue.filter (· ≠ m) = c.queue) (back : m ∈ c'.queue)
  | evict {m : κ} {rest : List κ} (missing : p ∉ c.held) (full : c.free = []) (full' : c'.free = [])
      (front : c.queue = m :: rest) (can : usable m) (page : c'.page = update c.page m (some p))
      (order : c'.queue.filter (· ≠ m) = rest) (back : m ∈ c'.queue)
      (second : ¬ c.marked m ∨ ∀ k ∈ rest, ¬ c'.marked k)

/-- A read of the page finds a slot. -/
def CanRead (usable : κ → Prop) (p : ι) (c : Cache κ ι) : Prop :=
  p ∈ c.held ∨ c.free ≠ [] ∨ ∃ m rest, c.queue = m :: rest ∧ usable m

omit [DecidableEq κ] in
theorem CanRead.mono {usable' : κ → Prop} (more : ∀ m, usable m → usable' m) (can : CanRead usable p c) :
    CanRead usable' p c :=
  can.imp_right (Or.imp_right fun ⟨m, rest, front, here⟩ => ⟨m, rest, front, more m here⟩)

theorem Read.mono {usable' : κ → Prop} (more : ∀ m, usable m → usable' m) (read : Read usable p c c') :
    Read usable' p c c' := by
  cases read with
  | hit listed here free page order back marked others => exact .hit listed here free page order back marked others
  | fill missing free page order back => exact .fill missing free page order back
  | evict missing full full' front can page order back second =>
    exact .evict missing full full' front (more _ can) page order back second

/-- The first slots of the queue are usable, one for each page that finds no free slot. -/
def Fits (usable : κ → Prop) (pages : Finset ι) (c : Cache κ ι) : Prop :=
  (c.free ≠ [] ∨ c.queue ≠ []) ∧ ∀ m ∈ c.queue.take (pages.card - c.free.length), usable m

/-- A slot that goes back into the queue. -/
theorem perm_of_back {queue rest : List κ} (distinct : queue.Nodup) (back : m ∈ queue)
    (order : queue.filter (· ≠ m) = rest) : queue.Perm (m :: rest) := by
  have erased : queue.erase m = rest := by
    rw [distinct.erase_eq_filter, ← order]
    refine List.filter_congr fun k _ => ?_
    rw [Bool.eq_iff_iff]
    simp
  rw [← erased]
  exact List.perm_cons_erase back

/-- The queue and the pages that are held after a slot is filled and has gone back into the queue. -/
theorem filled_slot {rest : List κ} (page : c'.page = update c.page m (some p)) (back : m ∈ c'.queue)
    (order : c'.queue.filter (· ≠ m) = rest) : c'.olds = rest.filter (fun k => (c.page k).isNone) ∧
      c'.held.Perm (p :: rest.filterMap c.page) := by
  have apart {k : κ} (member : k ∈ rest) : k ≠ m := by
    rw [← order] at member
    simpa using (List.mem_filter.mp member).2
  have same {k : κ} (member : k ∈ rest) : c'.page k = c.page k := by rw [page, update_of_ne (apart member)]
  constructor
  · rw [← List.filter_congr fun k member => congrArg Option.isNone (same member), ← order, List.filter_filter]
    refine List.filter_congr fun k _ => ?_
    rcases eq_or_ne k m with rfl | other
    · simp [page]
    · simp [other]
  · have moved := (perm_of_back c'.nodup back order).filterMap c'.page
    rw [List.filterMap_cons_some (show c'.page m = some p by rw [page, update_self])] at moved
    rwa [List.filterMap_congr fun k member => same member] at moved

/-- The state of a cache of which `t` old slots have been evicted since the start. -/
structure Filled (usable : κ → Prop) (pages : Finset ι) (start : Cache κ ι) (t : ℕ) (c : Cache κ ι) : Prop where
  olds : c.olds = start.queue.drop t
  count : c.held.length + c.free.length = start.free.length + t
  within : ∀ p ∈ c.held, p ∈ pages
  able : ∀ m ∈ c.queue, (c.page m).isSome → usable m
  spare : ∀ m ∈ c.free, usable m

omit [DecidableEq κ] in
theorem Filled.initial (bare : ∀ m, start.page m = none) (spare : ∀ m ∈ start.free, usable m) :
    Filled usable pages start 0 start where
  olds := by simp [Cache.olds, bare]
  count := by
    have none : start.held = [] := by simp [Cache.held, bare]
    rw [none, List.length_nil, Nat.zero_add, Nat.add_zero]
  within := fun p member => by
    obtain ⟨m, _, here⟩ := Cache.mem_held.mp member
    simp [bare] at here
  able := fun m _ here => by simp [bare] at here
  spare := spare

/-- A slot that is filled and goes back into the queue. -/
theorem Filled.refill (filled : Filled usable pages start t c) (wanted : p ∈ pages) (can : usable m)
    {rest : List κ} {t' : ℕ} (within : rest ⊆ c.queue) (page : c'.page = update c.page m (some p)) (back : m ∈ c'.queue)
    (order : c'.queue.filter (· ≠ m) = rest) (left : c'.free ⊆ c.free)
    (olds : rest.filter (fun k => (c.page k).isNone) = start.queue.drop t')
    (count : (rest.filterMap c.page).length + 1 + c'.free.length = start.free.length + t') :
    Filled usable pages start t' c' := by
  obtain ⟨olds', held⟩ := filled_slot page back order
  refine ⟨olds'.trans olds, by rw [held.length_eq, List.length_cons, count], ?_, ?_,
    fun k free => filled.spare k (left free)⟩
  · intro q member
    rcases List.mem_cons.mp (held.mem_iff.mp member) with rfl | member
    · exact wanted
    · obtain ⟨k, member, here⟩ := List.mem_filterMap.mp member
      exact filled.within q (Cache.mem_held.mpr ⟨k, within member, here⟩)
  · intro k member here
    rcases List.mem_cons.mp ((perm_of_back c'.nodup back order).mem_iff.mp member) with rfl | member
    · exact can
    · rw [page] at here
      by_cases same : k = m
      · exact same ▸ can
      · rw [update_of_ne same] at here
        exact filled.able k (within member) here

/-- A read of a page that is there leaves the slots as they are. -/
theorem hit_same (listed : m ∈ c.queue) (here : c.page m = some p) (page : c'.page = c.page)
    (order : c'.queue.filter (· ≠ m) = c.queue.filter (· ≠ m)) (back : m ∈ c'.queue) :
    c'.queue.Perm c.queue ∧ c'.olds = c.olds := by
  refine ⟨(perm_of_back c'.nodup back order).trans (perm_of_back c.nodup listed rfl).symm, ?_⟩
  have skipped (queue : List κ) : queue.filter (fun k => (c.page k).isNone) =
      (queue.filter (· ≠ m)).filter fun k => (c.page k).isNone := by
    rw [List.filter_filter]
    refine List.filter_congr fun k _ => ?_
    rcases eq_or_ne k m with rfl | other
    · simp [here]
    · simp [other]
  rw [Cache.olds, page, skipped, order, ← skipped, Cache.olds]

theorem Filled.hit (filled : Filled usable pages start t c) (listed : m ∈ c.queue) (here : c.page m = some p)
    (free : c'.free = c.free) (page : c'.page = c.page)
    (order : c'.queue.filter (· ≠ m) = c.queue.filter (· ≠ m)) (back : m ∈ c'.queue) :
    Filled usable pages start t c' := by
  obtain ⟨perm, olds⟩ := hit_same listed here page order back
  have held : c'.held.Perm c.held := by
    rw [Cache.held, page]
    exact perm.filterMap c.page
  refine ⟨olds.trans filled.olds, by rw [held.length_eq, free, filled.count], ?_, ?_, ?_⟩
  · exact fun q member => filled.within q (held.mem_iff.mp member)
  · exact fun k member here => filled.able k (perm.mem_iff.mp member) (page ▸ here)
  · exact fun k member => filled.spare k (free ▸ member)

theorem Filled.fill (filled : Filled usable pages start t c) (wanted : p ∈ pages) (free : c.free = m :: c'.free)
    (page : c'.page = update c.page m (some p)) (order : c'.queue.filter (· ≠ m) = c.queue) (back : m ∈ c'.queue) :
    Filled usable pages start t c' := by
  have can := filled.spare m (free ▸ List.mem_cons_self)
  have count := filled.count
  rw [free, List.length_cons] at count
  refine filled.refill wanted can (List.Subset.refl _) page back order ?_ filled.olds ?_
  · exact free ▸ List.subset_cons_self m c'.free
  · rw [Cache.held] at count
    omega

/-- The head of the queue is evicted: it was the first of the old slots, or a read had filled it. -/
theorem Filled.evict (filled : Filled usable pages start t c) (wanted : p ∈ pages) {rest : List κ} (full : c.free = [])
    (full' : c'.free = []) (front : c.queue = m :: rest) (can : usable m) (page : c'.page = update c.page m (some p))
    (order : c'.queue.filter (· ≠ m) = rest) (back : m ∈ c'.queue) :
    (c.page m = none → start.queue.drop t = m :: start.queue.drop (t + 1) ∧ Filled usable pages start (t + 1) c') ∧
      ((c.page m).isSome → Filled usable pages start t c') := by
  have olds := filled.olds
  have count := filled.count
  have within : rest ⊆ c.queue := front ▸ List.subset_cons_self m rest
  rw [Cache.held, front, full, List.length_nil] at count
  rw [Cache.olds, front] at olds
  constructor
  · intro here
    rw [List.filter_cons_of_pos (by simp [here])] at olds
    rw [List.filterMap_cons_none here] at count
    have next : rest.filter (fun k => (c.page k).isNone) = start.queue.drop (t + 1) := by
      rw [← List.tail_drop, ← olds, List.tail_cons]
    refine ⟨next ▸ olds.symm, filled.refill wanted can within page back order (by simp [full']) next ?_⟩
    rw [full', List.length_nil]
    omega
  · intro here
    obtain ⟨q, here⟩ := Option.isSome_iff_exists.mp here
    rw [List.filter_cons_of_neg (by simp [here])] at olds
    rw [List.filterMap_cons_some here, List.length_cons] at count
    refine filled.refill wanted can within page back order (by simp [full']) olds ?_
    rw [full', List.length_nil]
    exact count

/-- A read evicts at most one old slot. -/
theorem Filled.read (filled : Filled usable pages start t c) (wanted : p ∈ pages) (read : Read usable p c c') :
    ∃ t', Filled usable pages start t' c' := by
  cases read with
  | hit listed here free page order back => exact ⟨t, filled.hit listed here free page order back⟩
  | fill missing free page order back => exact ⟨t, filled.fill wanted free page order back⟩
  | @evict m rest missing full full' front can page order back =>
    obtain ⟨old, young⟩ := filled.evict wanted full full' front can page order back
    cases here : c.page m with
    | none => exact ⟨t + 1, (old here).2⟩
    | some q => exact ⟨t, young (by rw [here]; rfl)⟩

omit [DecidableEq κ] in
/-- The next old slot is one of the first of the queue as it was. -/
theorem mem_take_of_drop {queue rest : List κ} {n : ℕ} (next : queue.drop t = m :: rest) (below : t < n) :
    m ∈ queue.take n := by
  have here : queue[t]? = some m := by
    have front := congrArg (fun queue : List κ => queue[0]?) next
    simpa using front
  rw [← List.getElem?_take_of_lt below] at here
  exact List.mem_of_getElem? here

omit [DecidableEq κ] in
/-- Where the first slots are usable, every read finds one. -/
theorem Filled.canRead (filled : Filled usable pages start t c) (fits : Fits usable pages start) (wanted : p ∈ pages) :
    CanRead usable p c := by
  refine or_iff_not_imp_left.mpr fun missing => or_iff_not_imp_left.mpr fun full => ?_
  have count := filled.count
  rw [not_not.mp full, List.length_nil, Nat.add_zero] at count
  -- the pages that are held and the one that is read are different ones of the pages
  have fewer : c.held.length < pages.card := by
    have within : p :: c.held ⊆ pages.toList := by
      intro q member
      rw [Finset.mem_toList]
      rcases List.mem_cons.mp member with rfl | member
      · exact wanted
      · exact filled.within q member
    have bound := ((List.nodup_cons.mpr ⟨missing, c.held_nodup⟩).subperm within).length_le
    rwa [List.length_cons, Finset.length_toList] at bound
  cases front : c.queue with
  | nil =>
    have olds := filled.olds
    rw [Cache.olds, front, List.filter_nil] at olds
    rw [Cache.held, front, List.filterMap_nil, List.length_nil] at count
    obtain ⟨none, rfl⟩ : start.free.length = 0 ∧ t = 0 := by omega
    rcases fits.1 with some | some
    · exact absurd (List.length_eq_zero_iff.mp none) some
    · exact absurd olds.symm some
  | cons m rest =>
    refine ⟨m, rest, rfl, ?_⟩
    cases here : c.page m with
    | some q => exact filled.able m (front ▸ List.mem_cons_self) (by simp [here])
    | none =>
      have olds := filled.olds
      rw [Cache.olds, front, List.filter_cons_of_pos (by simp [here])] at olds
      exact fits.2 m (mem_take_of_drop olds.symm (by omega))

/-! ## A system that serves the reads -/

variable {σ : Type w} {next : ι → σ → σ → Prop} {View : σ → Cache κ ι → Prop} {s s' : σ}

/-- Some page is read. -/
def AnyRead (pages : Finset ι) (next : ι → σ → σ → Prop) (s s' : σ) : Prop := ∃ p ∈ pages, next p s s'

/-- The system reads as the caches it is seen as. -/
def Simulates (usable : κ → Prop) (pages : Finset ι) (next : ι → σ → σ → Prop) (View : σ → Cache κ ι → Prop) : Prop :=
  ∀ p ∈ pages, ∀ s s' c, View s c → next p s s' → ∃ c', View s' c' ∧ Read usable p c c'

/-- Every page can be read, however often. -/
def AlwaysServes (pages : Finset ι) (next : ι → σ → σ → Prop) (s : σ) : Prop :=
  ∀ s', ReflTransGen (AnyRead pages next) s s' → ∀ p ∈ pages, ∃ s'', next p s' s''

omit [DecidableEq κ] in
/-- Some of the pages. -/
theorem AlwaysServes.subset {fewer : Finset ι} (always : AlwaysServes pages next s) (within : fewer ⊆ pages) :
    AlwaysServes fewer next s := by
  intro s' reads p wanted
  have more (s s' : σ) (read : AnyRead fewer next s s') : AnyRead pages next s s' :=
    read.imp fun q => .imp_left (within ·)
  exact always s' (ReflTransGen.mono more _ _ reads) p (within wanted)

omit [DecidableEq κ] in
theorem AlwaysServes.later (always : AlwaysServes pages next s) (reads : ReflTransGen (AnyRead pages next) s s') :
    AlwaysServes pages next s' :=
  fun _ later => always _ (reads.trans later)

/-- Some slots may have been marked since, of those that reads had filled. -/
structure Marks (c c' : Cache κ ι) : Prop where
  queue : c'.queue.Perm c.queue
  page : c'.page = c.page
  olds : c'.olds = c.olds
  free : c'.free = c.free
  kept : ∀ m, c.marked m → c'.marked m
  bare : ∀ m, c.page m = none → c'.marked m → c.marked m

/-- The slots that reads have filled can be marked, one after another. -/
theorem exists_marks (simulates : Simulates usable pages next View) (always : AlwaysServes pages next s)
    (view : View s c) (slots : List κ) (listed : ∀ m ∈ slots, m ∈ c.queue ∧ ∃ p ∈ pages, c.page m = some p) :
    ∃ s' c', ReflTransGen (AnyRead pages next) s s' ∧ View s' c' ∧ Marks c c' ∧ ∀ m ∈ slots, c'.marked m := by
  induction slots with
  | nil =>
    exact ⟨s, c, .refl, view, ⟨.refl _, rfl, rfl, rfl, fun _ => id, fun _ _ => id⟩, nofun⟩
  | cons m slots ih =>
    obtain ⟨s₁, c₁, reads, view₁, marks, marked⟩ := ih fun k member => listed k (.tail _ member)
    obtain ⟨member, p, wanted, here⟩ := listed m List.mem_cons_self
    have member₁ : m ∈ c₁.queue := marks.queue.mem_iff.mpr member
    have here₁ : c₁.page m = some p := by rw [marks.page, here]
    obtain ⟨s₂, served⟩ := always s₁ reads p wanted
    obtain ⟨c₂, view₂, read⟩ := simulates p wanted s₁ s₂ c₁ view₁ served
    have there : p ∈ c₁.held := Cache.mem_held.mpr ⟨m, member₁, here₁⟩
    cases read with
    | fill missing | evict missing => exact absurd there missing
    | @hit k listed' here' free page order back marked' others =>
      obtain rfl : k = m := c₁.once k listed' m member₁ p here' here₁
      obtain ⟨queue, olds⟩ := hit_same listed' here' page order back
      have kept (j : κ) (before : c₁.marked j) : c₂.marked j := by
        by_cases same : j = k
        · exact same ▸ marked'
        · exact (others j same).mpr before
      refine ⟨s₂, c₂, reads.tail ⟨p, wanted, served⟩, view₂, ⟨queue.trans marks.queue, page.trans marks.page,
        olds.trans marks.olds, free.trans marks.free, fun j before => kept j (marks.kept j before),
        fun j bare after => marks.bare j bare ((others j ?_).mp after)⟩, fun j member => ?_⟩
      · rintro rfl
        rw [here] at bare
        cases bare
      · rcases List.mem_cons.mp member with rfl | member
        · exact marked'
        · exact kept j (marked j member)

omit [DecidableEq κ] in
/-- Where fewer pages are held than there are, one is missing. -/
theorem exists_missing (few : c.held.length < pages.card) : ∃ p ∈ pages, p ∉ c.held := by
  by_contra none
  push Not at none
  have within : pages.toList ⊆ c.held := fun p member => none p (Finset.mem_toList.mp member)
  have bound := (pages.nodup_toList.subperm within).length_le
  rw [Finset.length_toList] at bound
  omega

omit [DecidableEq κ] in
theorem Marks.filled (marks : Marks c c') (filled : Filled usable pages start t c) :
    Filled usable pages start t c' := by
  have held : c'.held.Perm c.held := by
    rw [Cache.held, marks.page]
    exact marks.queue.filterMap c.page
  refine ⟨marks.olds.trans filled.olds, by rw [held.length_eq, marks.free, filled.count], ?_, ?_, ?_⟩
  · exact fun q member => filled.within q (held.mem_iff.mp member)
  · exact fun k member here => filled.able k (marks.queue.mem_iff.mp member) (marks.page ▸ here)
  · exact fun k member => filled.spare k (marks.free ▸ member)

omit [DecidableEq κ] in
theorem Filled.few (filled : Filled usable pages start t c) (full : c.free = [])
    (below : start.free.length + t < pages.card) : c.held.length < pages.card := by
  have count := filled.count
  rw [full, List.length_nil, Nat.add_zero] at count
  omega

/-- A read while every slot that a read has filled is marked evicts the first old slot, or it finds all marks taken
away: then what it evicts was marked, and no old slot is marked any more. -/
theorem exists_evicted (simulates : Simulates usable pages next View) (always : AlwaysServes pages next s)
    (view : View s c) (filled : Filled usable pages start t c) (full : c.free = [])
    (below : start.free.length + t < pages.card) : ∃ s' c', ReflTransGen (AnyRead pages next) s s' ∧ View s' c' ∧
      c'.free = [] ∧ ((∃ m, start.queue.drop t = m :: start.queue.drop (t + 1) ∧ usable m ∧
          Filled usable pages start (t + 1) c') ∨
        Filled usable pages start t c' ∧ (∀ m ∈ c.olds, c.marked m) ∧ ∀ m ∈ c'.olds, ¬ c'.marked m) := by
  -- every slot that a read has filled is marked
  obtain ⟨s₁, c₁, reads, view₁, marks, marked⟩ := exists_marks simulates always view
    (c.queue.filter fun m => (c.page m).isSome) fun m member => by
      obtain ⟨member, some⟩ := List.mem_filter.mp member
      obtain ⟨p, here⟩ := Option.isSome_iff_exists.mp some
      exact ⟨member, p, filled.within p (Cache.mem_held.mpr ⟨m, member, here⟩), here⟩
  have filled₁ := marks.filled filled
  have full₁ : c₁.free = [] := marks.free.trans full
  obtain ⟨p, wanted, missing⟩ := exists_missing (filled₁.few full₁ below)
  obtain ⟨s₂, served⟩ := always s₁ reads p wanted
  obtain ⟨c₂, view₂, read⟩ := simulates p wanted s₁ s₂ c₁ view₁ served
  refine ⟨s₂, c₂, reads.tail ⟨p, wanted, served⟩, view₂, ?_⟩
  cases read with
  | hit listed here => exact absurd (Cache.mem_held.mpr ⟨_, listed, here⟩) missing
  | fill _ free =>
    rw [full₁] at free
    cases free
  | @evict m rest _ _ full₂ front can page order back second =>
    obtain ⟨old, young⟩ := filled₁.evict wanted full₁ full₂ front can page order back
    refine ⟨full₂, ?_⟩
    cases here : c₁.page m with
    | none => exact Or.inl ⟨m, (old here).1, can, (old here).2⟩
    | some q =>
      have member : m ∈ c₁.queue := front ▸ List.mem_cons_self
      have head : c₁.marked m := marked m (List.mem_filter.mpr
        ⟨marks.queue.mem_iff.mp member, by rw [← marks.page, here]; rfl⟩)
      have bare := second.resolve_left (not_not.mpr head)
      have behind {k : κ} (member : k ∈ c₁.olds) : k ∈ rest := by
        obtain ⟨listed, none⟩ := List.mem_filter.mp member
        rw [front] at listed
        refine (List.mem_cons.mp listed).resolve_left ?_
        rintro rfl
        rw [here] at none
        cases none
      have later := young (by rw [here]; rfl)
      refine Or.inr ⟨later, fun k member => ?_, fun k member => ?_⟩
      · have none := (List.mem_filter.mp member).2
        rw [← marks.olds] at member
        exact marks.bare k (Option.isNone_iff_eq_none.mp none) (c₁.first m rest front head k (behind member))
      · rw [later.olds, ← filled₁.olds] at member
        exact bare k (behind member)

/-- After a read or two an old slot is evicted, the first. -/
theorem exists_next (simulates : Simulates usable pages next View) (always : AlwaysServes pages next s)
    (view : View s c) (filled : Filled usable pages start t c) (full : c.free = [])
    (below : start.free.length + t < pages.card) (some : start.queue.drop t ≠ []) :
    ∃ s' c' m, ReflTransGen (AnyRead pages next) s s' ∧ View s' c' ∧ c'.free = [] ∧
      start.queue.drop t = m :: start.queue.drop (t + 1) ∧ usable m ∧ Filled usable pages start (t + 1) c' := by
  obtain ⟨s₁, c₁, reads, view₁, full₁, ⟨m, next, can, filled₁⟩ | ⟨filled₁, _, unmarked⟩⟩ :=
    exists_evicted simulates always view filled full below
  · exact ⟨s₁, c₁, m, reads, view₁, full₁, next, can, filled₁⟩
  · obtain ⟨s₂, c₂, reads', view₂, full₂, ⟨m, next, can, filled₂⟩ | ⟨_, marked, _⟩⟩ :=
      exists_evicted simulates (always.later reads) view₁ filled₁ full₁ below
    · exact ⟨s₂, c₂, m, reads.trans reads', view₂, full₂, next, can, filled₂⟩
    · obtain ⟨m, member⟩ := List.exists_mem_of_ne_nil _ some
      rw [← filled₁.olds] at member
      exact absurd (marked m member) (unmarked m member)

/-- The free slots can be filled. -/
theorem exists_full (simulates : Simulates usable pages next View) (always : AlwaysServes pages next s)
    (view : View s c) (filled : Filled usable pages start 0 c) (below : start.free.length < pages.card) :
    ∃ s' c', ReflTransGen (AnyRead pages next) s s' ∧ View s' c' ∧ c'.free = [] ∧ Filled usable pages start 0 c' := by
  obtain ⟨n, length⟩ : ∃ n, c.free.length = n := ⟨_, rfl⟩
  induction n generalizing s c with
  | zero => exact ⟨s, c, .refl, view, List.length_eq_zero_iff.mp length, filled⟩
  | succ n ih =>
    have count := filled.count
    obtain ⟨p, wanted, missing⟩ := exists_missing (show c.held.length < pages.card by omega)
    obtain ⟨s₁, served⟩ := always s .refl p wanted
    obtain ⟨c₁, view₁, read⟩ := simulates p wanted s s₁ c view served
    have first : ReflTransGen (AnyRead pages next) s s₁ := .single ⟨p, wanted, served⟩
    cases read with
    | hit listed here => exact absurd (Cache.mem_held.mpr ⟨_, listed, here⟩) missing
    | evict _ full =>
      rw [full] at length
      cases length
    | fill _ free page order back =>
      rw [free, List.length_cons, Nat.succ_inj] at length
      obtain ⟨s₂, c₂, reads, result⟩ := ih (always.later first) view₁ (filled.fill wanted free page order back) length
      exact ⟨s₂, c₂, first.trans reads, result⟩

/-- A system that can always serve the reads of some pages has the slots for them. -/
theorem fits_of_alwaysServes (simulates : Simulates usable pages next View) (always : AlwaysServes pages next s)
    (view : View s c) (bare : ∀ m, c.page m = none) (spare : ∀ m ∈ c.free, usable m) (wanted : p ∈ pages) :
    Fits usable pages c := by
  have filled : Filled usable pages c 0 c := .initial bare spare
  constructor
  · obtain ⟨s', served⟩ := always s .refl p wanted
    obtain ⟨c', _, read⟩ := simulates p wanted s s' c view served
    cases read with
    | hit listed here =>
      rw [bare] at here
      cases here
    | fill _ free => exact Or.inl (by simp [free])
    | evict _ _ _ front => exact Or.inr (by simp [front])
  · have upTo (t : ℕ) (below : c.free.length + t < pages.card) (within : t ≤ c.queue.length) : ∃ s' c',
        ReflTransGen (AnyRead pages next) s s' ∧ View s' c' ∧ c'.free = [] ∧ Filled usable pages c t c' := by
      induction t with
      | zero => exact exists_full simulates always view filled (by omega)
      | succ t ih =>
        obtain ⟨s₁, c₁, reads, view₁, full, filled₁⟩ := ih (by omega) (by omega)
        obtain ⟨s₂, c₂, _, reads', view₂, full₂, _, _, filled₂⟩ := exists_next simulates (always.later reads) view₁
          filled₁ full (by omega) (by simp; omega)
        exact ⟨s₂, c₂, reads.trans reads', view₂, full₂, filled₂⟩
    intro m member
    obtain ⟨t, here⟩ := List.mem_iff_getElem?.mp member
    rw [List.getElem?_take] at here
    split_ifs at here with below
    obtain ⟨within, _⟩ := List.getElem?_eq_some_iff.mp here
    obtain ⟨s₁, c₁, reads, view₁, full, filled₁⟩ := upTo t (by omega) within.le
    obtain ⟨_, _, k, _, _, _, next, can, _⟩ := exists_next simulates (always.later reads) view₁ filled₁ full (by omega)
      (by simp; omega)
    have front := congrArg (fun queue : List κ => queue[0]?) next
    have there : c.queue[t]? = some k := by simpa using front
    rw [here, Option.some_inj] at there
    exact there ▸ can

end Refill
