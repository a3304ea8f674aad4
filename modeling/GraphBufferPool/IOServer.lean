import GraphBufferPool.Lib.Owners
import GraphBufferPool.Lib.Reach
import GraphBufferPool.Pool.FetchAsync

/-! # `IOServer`

Any number of threads send requests to the thread of the server, which goes around the places of `async_requests`,
takes a request from the channel where a place is free, and moves the request of a place on by a call of
`ProcessFunc`. What becomes of an operation shows in what `TryWait` answers.
-/

namespace Gbp

open Function Ownership Machine

/-- `async_SSD_IO_request_type`, by the number of requests accepted before it, with its `async_context.state`. -/
structure IORequest where
  id : ℕ
  state : ContextState

/-- Where the thread is in `Run`: at a place, in front of `ProcessFunc`, in front of the second `pop`, or behind the
loop. -/
inductive RunPc
  | visit (i : ℕ)
  | process (i : ℕ)
  | refill (i : ℕ)
  | ended

/-- `IOServer`: the capacities of `async_requests` and of the channel, and what they hold; the requests that were
accepted are counted, and those that were posted and deleted are listed. -/
structure IOServer where
  batch : ℕ
  capacity : ℕ
  channel : List IORequest
  asyncRequests : ℕ → Option IORequest
  stop : Bool
  pc : RunPc
  accepted : ℕ
  finished : List ℕ

namespace IOServer

/-- The constructor. -/
def new (batch capacity : ℕ) : IOServer := ⟨batch, capacity, [], fun _ => none, false, .visit 0, 0, []⟩

/-- `SendRequest`, where it makes one attempt; otherwise it repeats that until it returns true. -/
def sendRequest (s : IOServer) : Bool × IOServer :=
  if s.channel.length < s.capacity then
    (true, { s with channel := s.channel ++ [⟨s.accepted, .commit⟩], accepted := s.accepted + 1 })
  else (false, s)

/-- `request_channel_.pop` into place `i`, with where the thread goes if there was a request, and if not. -/
def pop (s : IOServer) (i : ℕ) (popped empty : RunPc) : IOServer :=
  match s.channel with
  | [] => { s with pc := empty }
  | req :: rest => { s with channel := rest, asyncRequests := update s.asyncRequests i (some req), pc := popped }

/-- The next step of `Run`; `ready` is what `TryWait` answers. A place whose request has been deleted is empty. -/
def run (s : IOServer) (ready : Bool) : IOServer :=
  match s.pc with
  | .visit i =>
    if i < s.batch then
      match s.asyncRequests i with
      | none => s.pop i (.process i) (.visit (i + 1))
      | some _ => { s with pc := .process i }
    else { s with pc := if s.stop then .ended else .visit 0 }
  | .process i =>
    match s.asyncRequests i with
    | none => s
    | some req =>
      let (done, state) := req.state.processFunc ready
      if done then
        { s with
          asyncRequests := update s.asyncRequests i none
          finished := req.id :: s.finished
          pc := .refill i }
      else { s with asyncRequests := update s.asyncRequests i (some ⟨req.id, state⟩), pc := .visit (i + 1) }
  | .refill i => s.pop i (.visit (i + 1)) (.visit (i + 1))
  | .ended => s

/-- A request is sent, the destructor sets `stop_`, or the thread of the server makes a step. -/
inductive Step : IOServer → IOServer → Prop
  | send (s : IOServer) : Step s s.sendRequest.2
  | stop (s : IOServer) : Step s { s with stop := true }
  | run (s : IOServer) (ready : Bool) : Step s (s.run ready)

/-- The states of a server with at least one place. -/
abbrev Run (s : IOServer) : Prop := Reach (fun s => ∃ batch capacity, 0 < batch ∧ s = new batch capacity) Step s

/-- The requests in the places. -/
def placed (s : IOServer) (i : ℕ) : Option ℕ := (s.asyncRequests i).map IORequest.id

/-- Where the requests are when the first `taken` of them have left the channel: each of these is finished or in one
place, and the others are in the channel, in their order. -/
structure Keeps (s : IOServer) (taken : ℕ) : Prop where
  channel : s.channel = (List.range' taken (s.accepted - taken)).map (⟨·, .commit⟩)
  taken_le : taken ≤ s.accepted
  room : s.channel.length ≤ s.capacity
  owners : Owners s.placed {id | id < taken ∧ id ∉ s.finished}
  finished : ∀ id ∈ s.finished, id < taken
  once : s.finished.Nodup

/-- What the thread knows where it is. -/
def At (s : IOServer) : RunPc → Prop
  | .visit i => i ≤ s.batch
  | .process i => i < s.batch ∧ ∃ req, s.asyncRequests i = some req
  | .refill i => i < s.batch ∧ s.asyncRequests i = none
  | .ended => s.stop

/-- The requests are in order, the thread is where it should be, and no finished request is left in a place. -/
structure Inv (s : IOServer) : Prop where
  keeps : ∃ taken, s.Keeps taken
  here : s.At s.pc
  positive : 0 < s.batch
  inside : ∀ i req, s.asyncRequests i = some req → i < s.batch ∧ req.state ≠ .finish

/-- The steps left for a request in a place. -/
def stage : Option IORequest → ℕ
  | some ⟨_, .commit⟩ => 2
  | some ⟨_, .poll⟩ => 1
  | _ => 0

/-- Where the thread is in a round. -/
def position : RunPc → ℕ
  | .visit i => 3 * i
  | .process i => 3 * i + 1
  | .refill i => 3 * i + 2
  | .ended => 0

/-- The steps until the thread is in front of `ProcessFunc` at place `i`, at most. -/
def distance (s : IOServer) (i : ℕ) : ℕ :=
  if position s.pc ≤ 3 * i + 1 then 3 * i + 1 - position s.pc else 3 * s.batch + 1 - position s.pc + (3 * i + 1)

/-- A bound for the steps that a request may have to wait for, if it is the `q`-th in the channel, or in place `i` for
`q = 0`; while it is in the channel the first place is watched. -/
def rank (s : IOServer) (q i : ℕ) : ℕ :=
  (3 * q + stage (s.asyncRequests i)) * (3 * s.batch + 1) + s.distance i

/-- Where an accepted request is that is not finished. -/
inductive Behind (s : IOServer) (id : ℕ) : ℕ → ℕ → Prop
  | waits {front rest : List IORequest} {req : IORequest} (there : s.channel = front ++ req :: rest)
      (same : req.id = id) : Behind s id (front.length + 1) 0
  | placed {i : ℕ} {req : IORequest} (there : s.asyncRequests i = some req) (same : req.id = id) : Behind s id 0 i

/-- What may happen in `n` steps of the thread, `d` of which find an operation that has not completed: requests may be
sent, and `stop_` stays as it is. -/
inductive Goes (s : IOServer) : ℕ → ℕ → IOServer → Prop
  | refl : Goes s 0 0 s
  | send {s' : IOServer} {n d : ℕ} (goes : Goes s n d s') : Goes s n d s'.sendRequest.2
  | run {s' : IOServer} {n d : ℕ} (goes : Goes s n d s') : Goes s (n + 1) d (s'.run true)
  | wait {s' : IOServer} {n d : ℕ} (goes : Goes s n d s') : Goes s (n + 1) (d + 1) (s'.run false)

variable {s s' : IOServer} {taken i j q id : ℕ} {place : Option IORequest}

section steps

theorem inv_new {batch : ℕ} (positive : 0 < batch) (capacity : ℕ) : (new batch capacity).Inv where
  keeps := by
    refine ⟨0, rfl, le_rfl, Nat.zero_le _, ?_, ?_, List.nodup_nil⟩
    · have none : {id | id < 0 ∧ id ∉ (new batch capacity).finished} = ∅ := by
        ext id
        exact iff_of_false (fun both => Nat.not_lt_zero id both.1) (Set.notMem_empty id)
      rw [none]
      exact Owners.nobody
    · intro id member
      cases member
  here := Nat.zero_le batch
  positive := positive
  inside := by
    intro i req here
    cases here

theorem Keeps.goto (keeps : s.Keeps taken) (stop : Bool) (pc : RunPc) :
    Keeps { s with stop := stop, pc := pc } taken :=
  ⟨keeps.channel, keeps.taken_le, keeps.room, keeps.owners, keeps.finished, keeps.once⟩

/-- The requests in the places after one of the places has changed. -/
theorem placed_update (after : s'.asyncRequests = update s.asyncRequests i place) :
    s'.placed = update s.placed i (place.map IORequest.id) := by
  funext j
  rw [placed, after]
  exact apply_update (fun _ => Option.map IORequest.id) s.asyncRequests i place j

/-- A place that has changed holds no finished request, and neither do the others. -/
theorem Inv.inside_update (inv : s.Inv) (new : ∀ req, place = some req → i < s.batch ∧ req.state ≠ .finish) :
    ∀ j req, update s.asyncRequests i place j = some req → j < s.batch ∧ req.state ≠ .finish :=
  (forall_update_iff s.asyncRequests fun j place => ∀ req, place = some req → j < s.batch ∧ req.state ≠ .finish).mpr
    ⟨new, fun j _ => inv.inside j⟩

theorem pop_nil (none : s.channel = []) (popped empty : RunPc) : s.pop i popped empty = { s with pc := empty } := by
  simp only [IOServer.pop, none]

theorem pop_cons {req : IORequest} {rest : List IORequest} (more : s.channel = req :: rest) (popped empty : RunPc) :
    s.pop i popped empty =
      { s with channel := rest, asyncRequests := update s.asyncRequests i (some req), pc := popped } := by
  simp only [IOServer.pop, more]

theorem pop_fields (s : IOServer) (j : ℕ) (popped empty : RunPc) :
    (s.pop j popped empty).batch = s.batch ∧ (s.pop j popped empty).stop = s.stop ∧
      (s.pop j popped empty).finished = s.finished ∧
      ((s.pop j popped empty).pc = popped ∨ (s.pop j popped empty).pc = empty) := by
  cases channel : s.channel with
  | nil =>
    rw [pop_nil channel]
    exact ⟨rfl, rfl, rfl, Or.inr rfl⟩
  | cons req rest =>
    rw [pop_cons channel]
    exact ⟨rfl, rfl, rfl, Or.inl rfl⟩

theorem Inv.sendRequest (inv : s.Inv) : s.sendRequest.2.Inv := by
  obtain ⟨⟨taken, keeps⟩, here, positive, inside⟩ := inv
  rw [IOServer.sendRequest]
  split_ifs with room
  · refine ⟨⟨taken, ?_, keeps.taken_le.trans (Nat.le_succ _), ?_, keeps.owners, keeps.finished, keeps.once⟩, here,
      positive, inside⟩
    · have last : taken + (s.accepted - taken) = s.accepted := Nat.add_sub_of_le keeps.taken_le
      dsimp only
      rw [Nat.sub_add_comm keeps.taken_le, List.range'_concat, List.map_append, ← keeps.channel, Nat.one_mul, last]
      rfl
    · rw [List.length_append, List.length_singleton]
      exact room
  · exact ⟨⟨taken, keeps⟩, here, positive, inside⟩

/-- A `pop` keeps the requests in order. -/
theorem Inv.pop (inv : s.Inv) (within : i < s.batch) (free : s.asyncRequests i = none) {popped empty : RunPc}
    (atPopped : ∀ req rest, s.channel = req :: rest →
      At { s with channel := rest, asyncRequests := update s.asyncRequests i (some req), pc := popped } popped)
    (atEmpty : s.channel = [] → s.At empty) : (s.pop i popped empty).Inv := by
  obtain ⟨⟨taken, keeps⟩, _, positive, inside⟩ := id inv
  cases channel : s.channel with
  | nil =>
    rw [pop_nil channel]
    exact ⟨⟨taken, keeps.goto _ _⟩, atEmpty channel, positive, inside⟩
  | cons req rest =>
    rw [pop_cons channel]
    have order := keeps.channel
    have room := keeps.room
    rw [channel] at order room
    obtain ⟨left, more⟩ : ∃ left, s.accepted - taken = left + 1 := by
      refine Nat.exists_eq_succ_of_ne_zero fun zero => ?_
      rw [zero] at order
      cases order
    rw [more, List.range'_succ, List.map_cons, List.cons_eq_cons] at order
    obtain ⟨rfl, order⟩ := order
    have taken_lt : taken < s.accepted := by omega
    refine ⟨⟨taken + 1, ?_, taken_lt, (Nat.le_succ _).trans room, ?_, ?_, keeps.once⟩, atPopped _ _ channel, positive,
      ?_⟩
    · have count : s.accepted - (taken + 1) = left := by omega
      dsimp only
      rw [count]
      exact order
    · have owners := keeps.owners.acquire (o := i) (h := taken) (by rw [placed, free]; rfl)
        (fun both => absurd both.1 (lt_irrefl _))
      have live : insert taken {id | id < taken ∧ id ∉ s.finished} = {id | id < taken + 1 ∧ id ∉ s.finished} := by
        ext id
        have fresh : taken ∉ s.finished := fun member => absurd (keeps.finished _ member) (lt_irrefl _)
        simp only [Set.mem_insert_iff, Set.mem_ofPred_eq, Nat.lt_succ_iff_lt_or_eq]
        constructor
        · rintro (rfl | ⟨before, left⟩)
          · exact ⟨Or.inr rfl, fresh⟩
          · exact ⟨Or.inl before, left⟩
        · rintro ⟨before | rfl, left⟩
          · exact Or.inr ⟨before, left⟩
          · exact Or.inl rfl
      rw [placed_update rfl, ← live]
      exact owners
    · intro id member
      exact (keeps.finished id member).trans (Nat.lt_succ_self _)
    · apply inv.inside_update
      intro req here
      cases here
      exact ⟨within, ContextState.noConfusion⟩

/-- The request of a place is posted and deleted. -/
theorem Inv.post (inv : s.Inv) {req : IORequest} (there : s.asyncRequests i = some req) :
    Inv { s with
      asyncRequests := update s.asyncRequests i none
      finished := req.id :: s.finished
      pc := .refill i } := by
  obtain ⟨⟨taken, keeps⟩, _, positive, inside⟩ := id inv
  have holds : s.placed i = some req.id := by rw [placed, there, Option.map_some]
  obtain ⟨before, left⟩ := keeps.owners.mem holds
  refine ⟨⟨taken, keeps.channel, keeps.taken_le, keeps.room, ?_, ?_, List.nodup_cons.mpr ⟨left, keeps.once⟩⟩,
    ⟨(inside i req there).1, update_self ..⟩, positive, ?_⟩
  · have owners := keeps.owners.release holds
    have live : {id | id < taken ∧ id ∉ s.finished} \ {req.id} = {id | id < taken ∧ id ∉ req.id :: s.finished} := by
      ext id
      simp only [Set.mem_sdiff, Set.mem_singleton_iff, Set.mem_ofPred_eq, List.mem_cons, not_or]
      constructor
      · rintro ⟨⟨early, here⟩, other⟩
        exact ⟨early, other, here⟩
      · rintro ⟨early, other, here⟩
        exact ⟨⟨early, here⟩, other⟩
    rw [placed_update rfl, ← live]
    exact owners
  · intro id member
    rcases List.mem_cons.mp member with rfl | member
    · exact before
    · exact keeps.finished id member
  · apply inv.inside_update
    intro req here
    cases here

/-- The request of a place moves on. -/
theorem Inv.advance (inv : s.Inv) {req : IORequest} (there : s.asyncRequests i = some req) {state : ContextState}
    (unfinished : state ≠ .finish) :
    Inv { s with asyncRequests := update s.asyncRequests i (some ⟨req.id, state⟩), pc := .visit (i + 1) } := by
  obtain ⟨⟨taken, keeps⟩, _, positive, inside⟩ := id inv
  have within := (inside i req there).1
  refine ⟨⟨taken, keeps.channel, keeps.taken_le, keeps.room, ?_, keeps.finished, keeps.once⟩, within, positive, ?_⟩
  · have same : s.placed i = some req.id := by rw [placed, there, Option.map_some]
    rw [placed_update rfl, Option.map_some, ← same, update_eq_self]
    exact keeps.owners
  · apply inv.inside_update
    intro req here
    cases here
    exact ⟨within, unfinished⟩

theorem Inv.run (inv : s.Inv) (ready : Bool) : (s.run ready).Inv := by
  have here := inv.here
  obtain ⟨⟨taken, keeps⟩, _, positive, inside⟩ := id inv
  rw [IOServer.run]
  cases at_pc : s.pc with
  | visit i =>
    rw [at_pc] at here
    dsimp only
    split_ifs with within stop
    · cases there : s.asyncRequests i with
      | none =>
        exact inv.pop within there (fun req rest _ => ⟨within, req, update_self ..⟩) fun _ => within
      | some req => exact ⟨⟨taken, keeps.goto _ _⟩, ⟨within, req, there⟩, positive, inside⟩
    · exact ⟨⟨taken, keeps.goto _ _⟩, stop, positive, inside⟩
    · exact ⟨⟨taken, keeps.goto _ _⟩, Nat.zero_le _, positive, inside⟩
  | process i =>
    rw [at_pc] at here
    obtain ⟨within, req, there⟩ := here
    dsimp only
    rw [there]
    dsimp only
    split_ifs with done
    · exact inv.post there
    · refine inv.advance there ?_
      cases state : req.state with
      | commit => exact ContextState.noConfusion
      | poll =>
        rw [state] at done
        cases ready with
        | true => exact absurd rfl done
        | false => exact ContextState.noConfusion
      | finish => exact absurd state (inside i req there).2
  | refill i =>
    rw [at_pc] at here
    exact inv.pop here.1 here.2 (fun _ _ _ => here.1) fun _ => here.1
  | ended => exact inv

theorem Step.inv (inv : s.Inv) (step : Step s s') : s'.Inv := by
  cases step with
  | send => exact inv.sendRequest
  | stop =>
    obtain ⟨⟨taken, keeps⟩, here, positive, inside⟩ := inv
    refine ⟨⟨taken, keeps.goto _ _⟩, ?_, positive, inside⟩
    dsimp only
    cases at_pc : s.pc with
    | visit | process | refill =>
      rw [at_pc] at here
      exact here
    | ended => rfl
  | run ready => exact inv.run ready

theorem Run.inv (run : Run s) : s.Inv := by
  refine run.invariant ?_ fun _ _ inv step => step.inv inv
  rintro _ ⟨batch, capacity, positive, rfl⟩
  exact inv_new positive capacity

end steps

section progress

theorem Inv.position_le (inv : s.Inv) : position s.pc ≤ 3 * s.batch := by
  have here := inv.here
  cases at_pc : s.pc with
  | visit i =>
    rw [at_pc] at here
    exact Nat.mul_le_mul_left 3 here
  | process i | refill i =>
    rw [at_pc] at here
    have := here.1
    simp only [position]
    omega
  | ended => exact Nat.zero_le _

theorem Inv.distance_le (inv : s.Inv) (within : i < s.batch) : s.distance i ≤ 3 * s.batch := by
  have := inv.position_le
  unfold distance
  split_ifs <;> omega

/-- A step that gets nothing done for a request comes closer to its place. -/
theorem Behind.keep (behind : Behind s id q i) (batch : s'.batch = s.batch) (channel : q ≠ 0 → s'.channel = s.channel)
    (same : s'.asyncRequests i = s.asyncRequests i) (closer : s'.distance i < s.distance i) :
    Behind s' id q i ∧ s'.rank q i < s.rank q i := by
  constructor
  · cases behind with
    | waits there named => exact .waits ((channel (Nat.succ_ne_zero _)).trans there) named
    | placed there named => exact .placed (same.trans there) named
  · rw [rank, rank, same, batch]
    exact Nat.add_lt_add_left closer _

/-- A step that gets something done for a request may have to be made up for by a whole round. -/
theorem rank_lt {q' i' : ℕ} (batch : s'.batch = s.batch)
    (less : 3 * q' + stage (s'.asyncRequests i') < 3 * q + stage (s.asyncRequests i))
    (round : s'.distance i' ≤ 3 * s.batch) : s'.rank q' i' < s.rank q i := by
  have rounds := Nat.mul_le_mul_right (3 * s.batch + 1) (Nat.succ_le_of_lt less)
  rw [Nat.succ_mul] at rounds
  rw [rank, rank, batch]
  omega

/-- A place in front of which the thread goes on. -/
theorem distance_lt (batch : s'.batch = s.batch) (inside : position s'.pc ≤ 3 * s.batch)
    (forward : position s.pc < position s'.pc)
    (passes : position s.pc ≤ 3 * i + 1 → position s'.pc ≤ 3 * i + 1) : s'.distance i < s.distance i := by
  unfold distance
  rw [batch]
  split_ifs <;> omega

theorem Inv.placed_lt (inv : s.Inv) (behind : Behind s id q i) : i < s.batch := by
  cases behind with
  | waits => exact inv.positive
  | placed there => exact (inv.inside i _ there).1

/-- A `pop` gets something done for every request in the channel. -/
theorem Behind.pop (behind : Behind s id q i) (inv : s.Inv) (free : s.asyncRequests j = none) {popped empty : RunPc}
    (after : (s.pop j popped empty).Inv) (closer : i ≠ j → (s.pop j popped empty).distance i < s.distance i) :
    ∃ q' i', Behind (s.pop j popped empty) id q' i' ∧ (s.pop j popped empty).rank q' i' < s.rank q i := by
  obtain ⟨taken, keeps⟩ := inv.keeps
  cases channel : s.channel with
  | nil =>
    -- The request is in another place.
    rw [pop_nil channel] at closer ⊢
    cases behind with
    | waits there => simp [channel] at there
    | @placed i req there named =>
      have other : i ≠ j := by
        rintro rfl
        rw [free] at there
        cases there
      exact ⟨0, i, (Behind.placed there named).keep rfl (absurd rfl) rfl (closer other)⟩
  | cons req rest =>
    have two : stage (some req) = 2 := by
      have member : req ∈ s.channel := channel ▸ List.mem_cons_self
      rw [keeps.channel] at member
      obtain ⟨_, _, rfl⟩ := List.mem_map.mp member
      rfl
    rw [pop_cons channel] at closer after ⊢
    cases behind with
    | @placed i req' there named =>
      have other : i ≠ j := by
        rintro rfl
        rw [free] at there
        cases there
      exact ⟨0, i, (Behind.placed there named).keep rfl (absurd rfl) (update_of_ne other ..) (closer other)⟩
    | @waits front rest' req' there named =>
      rw [channel] at there
      cases front with
      | nil =>
        cases there
        refine ⟨0, j, .placed (update_self ..) named, rank_lt rfl ?_ (after.distance_le ?_)⟩
        · dsimp only
          rw [update_self, two, List.length_nil]
          omega
        · exact (after.inside j req (update_self ..)).1
      | cons first front =>
        cases there
        refine ⟨front.length + 1, 0, .waits rfl named, rank_lt rfl ?_ (after.distance_le inv.positive)⟩
        dsimp only
        rw [List.length_cons]
        rcases eq_or_ne 0 j with rfl | other
        · rw [update_self, two]
          omega
        · rw [update_of_ne other]
          omega

theorem run_advance {req : IORequest} {ready : Bool} {state : ContextState} (at_pc : s.pc = .process j)
    (there : s.asyncRequests j = some req) (call : req.state.processFunc ready = (false, state)) : s.run ready =
      { s with asyncRequests := update s.asyncRequests j (some ⟨req.id, state⟩), pc := .visit (j + 1) } := by
  rw [IOServer.run, at_pc]
  dsimp only
  rw [there]
  dsimp only
  rw [call]
  rfl

theorem run_post {req : IORequest} {ready : Bool} {state : ContextState} (at_pc : s.pc = .process j)
    (there : s.asyncRequests j = some req) (call : req.state.processFunc ready = (true, state)) : s.run ready =
      { s with
        asyncRequests := update s.asyncRequests j none
        finished := req.id :: s.finished
        pc := .refill j } := by
  rw [IOServer.run, at_pc]
  dsimp only
  rw [there]
  dsimp only
  rw [call]
  rfl

/-- A request keeps its place when it moves on. -/
theorem Behind.advance (behind : Behind s id q i) {req : IORequest} {state : ContextState}
    (there : s.asyncRequests i = some req) (channel : s'.channel = s.channel)
    (moved : s'.asyncRequests i = some ⟨req.id, state⟩) : Behind s' id q i := by
  cases behind with
  | waits waiting named => exact .waits (channel.trans waiting) named
  | placed here named =>
    rw [there] at here
    cases here
    exact .placed moved named

/-- `ProcessFunc` is called for the request that is watched. -/
theorem Behind.process_here (behind : Behind s id q i) (inv : s.Inv) (at_pc : s.pc = .process i) (ready : Bool) :
    id ∈ (s.run ready).finished ∨ ∃ q' i', Behind (s.run ready) id q' i' ∧
      (s.run ready).rank q' i' < s.rank q i + if ready then 0 else 3 * s.batch + 1 := by
  have after := inv.run ready
  obtain ⟨within, ⟨number, state⟩, there⟩ : s.At (.process i) := at_pc ▸ inv.here
  cases state with
  | commit =>
    have call : ContextState.commit.processFunc ready = (false, .poll) := rfl
    rw [run_advance at_pc there call] at after ⊢
    refine Or.inr ⟨q, i, behind.advance there rfl (update_self ..), Nat.lt_add_right _ (rank_lt rfl ?_ ?_)⟩
    · rw [there]
      dsimp only
      rw [update_self]
      exact Nat.lt_succ_self _
    · exact after.distance_le within
  | poll =>
    cases ready with
    | true =>
      have call : ContextState.poll.processFunc true = (true, .finish) := rfl
      rw [run_post at_pc there call] at after ⊢
      cases behind with
      | waits waiting named =>
        refine Or.inr ⟨_, 0, .waits waiting named, Nat.lt_add_right _ (rank_lt rfl ?_ ?_)⟩
        · rw [there]
          dsimp only
          rw [update_self]
          exact Nat.lt_succ_self _
        · exact after.distance_le within
      | placed here named =>
        rw [there] at here
        cases here
        rw [← named]
        exact Or.inl List.mem_cons_self
    | false =>
      have call : ContextState.poll.processFunc false = (false, .poll) := rfl
      rw [run_advance at_pc there call] at after ⊢
      refine Or.inr ⟨q, i, behind.advance there rfl (update_self ..), ?_⟩
      have round := after.distance_le within
      rw [rank, rank, if_neg Bool.false_ne_true, there]
      dsimp only at round ⊢
      rw [update_self]
      omega
  | finish => exact absurd rfl (inv.inside i _ there).2

/-- `ProcessFunc` is called at another place. -/
theorem Behind.process_elsewhere (behind : Behind s id q i) (inv : s.Inv) (at_pc : s.pc = .process j) (other : i ≠ j)
    (ready : Bool) : Behind (s.run ready) id q i ∧ (s.run ready).rank q i < s.rank q i := by
  have after := inv.run ready
  obtain ⟨within, req, there⟩ : s.At (.process j) := at_pc ▸ inv.here
  have start : position s.pc = 3 * j + 1 := by rw [at_pc, position]
  cases call : req.state.processFunc ready with
  | mk done state =>
    cases done with
    | true =>
      rw [run_post at_pc there call] at after ⊢
      have next : position (.refill j) = 3 * j + 2 := rfl
      exact behind.keep rfl (fun _ => rfl) (update_of_ne other ..)
        (distance_lt rfl after.position_le (by dsimp only; omega) (by dsimp only; omega))
    | false =>
      rw [run_advance at_pc there call] at after ⊢
      have next : position (.visit (j + 1)) = 3 * j + 3 := rfl
      exact behind.keep rfl (fun _ => rfl) (update_of_ne other ..)
        (distance_lt rfl after.position_le (by dsimp only; omega) (by dsimp only; omega))

/-- The thread comes to a place. -/
theorem Behind.visit (behind : Behind s id q i) (inv : s.Inv) (going : s.stop = false) (at_pc : s.pc = .visit j)
    (ready : Bool) : ∃ q' i', Behind (s.run ready) id q' i' ∧ (s.run ready).rank q' i' < s.rank q i := by
  have after := inv.run ready
  have here : j ≤ s.batch := (at_pc ▸ inv.here : s.At (.visit j))
  have within := inv.placed_lt behind
  have start : position s.pc = 3 * j := by rw [at_pc, position]
  rcases Nat.lt_or_ge j s.batch with inside | last
  · cases there : s.asyncRequests j with
    | none =>
      have result : s.run ready = s.pop j (.process j) (.visit (j + 1)) := by
        rw [IOServer.run, at_pc]
        dsimp only
        rw [if_pos inside, there]
      rw [result] at after ⊢
      refine behind.pop inv there after fun other => ?_
      obtain ⟨batch, _, _, next⟩ := s.pop_fields j (.process j) (.visit (j + 1))
      have further : position (s.pop j (.process j) (.visit (j + 1))).pc = 3 * j + 1 ∨
          position (s.pop j (.process j) (.visit (j + 1))).pc = 3 * j + 3 := by
        rcases next with next | next
        · exact Or.inl (by rw [next, position])
        · exact Or.inr (by rw [next, position]; rfl)
      exact distance_lt batch (batch ▸ after.position_le) (by omega) (by omega)
    | some req =>
      have result : s.run ready = { s with pc := .process j } := by
        rw [IOServer.run, at_pc]
        dsimp only
        rw [if_pos inside, there]
      rw [result] at after ⊢
      have next : position (.process j) = 3 * j + 1 := rfl
      exact ⟨q, i, behind.keep rfl (fun _ => rfl) rfl
        (distance_lt rfl after.position_le (by dsimp only; omega) (by dsimp only; omega))⟩
  · -- The round is over.
    have result : s.run ready = { s with pc := .visit 0 } := by
      rw [IOServer.run, at_pc]
      dsimp only
      rw [if_neg (Nat.not_lt.mpr last), going]
      rfl
    obtain rfl : j = s.batch := le_antisymm here last
    rw [result]
    refine ⟨q, i, behind.keep rfl (fun _ => rfl) rfl ?_⟩
    have zero : position (.visit 0) = 0 := rfl
    simp only [distance, start, zero]
    split_ifs <;> omega

/-- The thread has emptied a place. -/
theorem Behind.refill (behind : Behind s id q i) (inv : s.Inv) (at_pc : s.pc = .refill j) (ready : Bool) :
    ∃ q' i', Behind (s.run ready) id q' i' ∧ (s.run ready).rank q' i' < s.rank q i := by
  have after := inv.run ready
  obtain ⟨_, free⟩ : s.At (.refill j) := at_pc ▸ inv.here
  have start : position s.pc = 3 * j + 2 := by rw [at_pc, position]
  have result : s.run ready = s.pop j (.visit (j + 1)) (.visit (j + 1)) := by rw [IOServer.run, at_pc]
  rw [result] at after ⊢
  refine behind.pop inv free after fun other => ?_
  obtain ⟨batch, _, _, next⟩ := s.pop_fields j (.visit (j + 1)) (.visit (j + 1))
  rw [or_self] at next
  have further : position (s.pop j (.visit (j + 1)) (.visit (j + 1))).pc = 3 * j + 3 := by
    rw [next, position]
    rfl
  exact distance_lt batch (batch ▸ after.position_le) (by omega) (by omega)

/-- A step of the thread, for a request that is not finished. -/
theorem Behind.run (behind : Behind s id q i) (inv : s.Inv) (going : s.stop = false) (ready : Bool) :
    id ∈ (s.run ready).finished ∨ ∃ q' i', Behind (s.run ready) id q' i' ∧
      (s.run ready).rank q' i' < s.rank q i + if ready then 0 else 3 * s.batch + 1 := by
  -- All cases but the call of `ProcessFunc` are as good as if the operation had completed.
  have quick (progress : ∃ q' i', Behind (s.run ready) id q' i' ∧ (s.run ready).rank q' i' < s.rank q i) :
      id ∈ (s.run ready).finished ∨ ∃ q' i', Behind (s.run ready) id q' i' ∧
        (s.run ready).rank q' i' < s.rank q i + if ready then 0 else 3 * s.batch + 1 := by
    obtain ⟨q', i', behind', less⟩ := progress
    exact Or.inr ⟨q', i', behind', Nat.lt_add_right _ less⟩
  cases at_pc : s.pc with
  | visit j => exact quick (behind.visit inv going at_pc ready)
  | process j =>
    rcases eq_or_ne i j with rfl | other
    · exact behind.process_here inv at_pc ready
    · exact quick ⟨q, i, behind.process_elsewhere inv at_pc other ready⟩
  | refill j => exact quick (behind.refill inv at_pc ready)
  | ended =>
    have stopped : s.stop = true := (at_pc ▸ inv.here : s.At .ended)
    exact absurd (going.symm.trans stopped) Bool.false_ne_true

/-- A step of the thread posts one request at most, and only if its operation has completed. -/
theorem Inv.run_cases (inv : s.Inv) (ready : Bool) :
    (s.run ready).batch = s.batch ∧ (s.run ready).stop = s.stop ∧
      ((s.run ready).finished = s.finished ∨
        ready = true ∧ ∃ i req, s.pc = .process i ∧ s.asyncRequests i = some req ∧ req.state = .poll ∧
          (s.run ready).finished = req.id :: s.finished) := by
  have here := inv.here
  cases at_pc : s.pc with
  | visit j =>
    rw [IOServer.run, at_pc]
    dsimp only
    split_ifs
    · cases s.asyncRequests j with
      | none =>
        obtain ⟨batch, stop, finished, _⟩ := s.pop_fields j (.process j) (.visit (j + 1))
        exact ⟨batch, stop, Or.inl finished⟩
      | some req => exact ⟨rfl, rfl, Or.inl rfl⟩
    · exact ⟨rfl, rfl, Or.inl rfl⟩
    · exact ⟨rfl, rfl, Or.inl rfl⟩
  | process j =>
    rw [at_pc] at here
    obtain ⟨_, req, there⟩ := here
    cases state : req.state with
    | commit =>
      have call : req.state.processFunc ready = (false, .poll) := by rw [state]; rfl
      rw [run_advance at_pc there call]
      exact ⟨rfl, rfl, Or.inl rfl⟩
    | poll =>
      cases ready with
      | true =>
        have call : req.state.processFunc true = (true, .finish) := by rw [state]; rfl
        rw [run_post at_pc there call]
        exact ⟨rfl, rfl, Or.inr ⟨rfl, j, req, rfl, there, state, rfl⟩⟩
      | false =>
        have call : req.state.processFunc false = (false, .poll) := by rw [state]; rfl
        rw [run_advance at_pc there call]
        exact ⟨rfl, rfl, Or.inl rfl⟩
    | finish => exact absurd state (inv.inside j req there).2
  | refill j =>
    rw [IOServer.run, at_pc]
    obtain ⟨batch, stop, finished, _⟩ := s.pop_fields j (.visit (j + 1)) (.visit (j + 1))
    exact ⟨batch, stop, Or.inl finished⟩
  | ended =>
    rw [IOServer.run, at_pc]
    exact ⟨rfl, rfl, Or.inl rfl⟩

/-- A request that is sent goes behind the others. -/
theorem Behind.send (behind : Behind s id q i) :
    Behind s.sendRequest.2 id q i ∧ s.sendRequest.2.rank q i = s.rank q i := by
  rw [sendRequest]
  split_ifs
  · refine ⟨?_, rfl⟩
    cases behind with
    | @waits front rest req there named =>
      refine @waits _ _ front (rest ++ [⟨s.accepted, .commit⟩]) req ?_ named
      dsimp only
      rw [there, List.append_assoc, List.cons_append]
    | placed there named => exact .placed there named
  · exact ⟨behind, rfl⟩

theorem sendRequest_fields (s : IOServer) : s.sendRequest.2.batch = s.batch ∧ s.sendRequest.2.stop = s.stop ∧
    s.sendRequest.2.finished = s.finished := by
  rw [sendRequest]
  split_ifs <;> exact ⟨rfl, rfl, rfl⟩

/-- What the thread does, and what is sent meanwhile, keeps the requests in order. -/
theorem Goes.keeps {n d : ℕ} (goes : Goes s n d s') (inv : s.Inv) (going : s.stop = false) :
    s'.Inv ∧ s'.batch = s.batch ∧ s'.stop = false ∧ ∀ id ∈ s.finished, id ∈ s'.finished := by
  have step {s' : IOServer} (ready : Bool)
      (before : s'.Inv ∧ s'.batch = s.batch ∧ s'.stop = false ∧ ∀ id ∈ s.finished, id ∈ s'.finished) :
      (s'.run ready).Inv ∧ (s'.run ready).batch = s.batch ∧ (s'.run ready).stop = false ∧
        ∀ id ∈ s.finished, id ∈ (s'.run ready).finished := by
    obtain ⟨inv', batch, stop, kept⟩ := before
    obtain ⟨batch', stop', same | ⟨_, i, req, _, _, _, posted⟩⟩ := inv'.run_cases ready
    · exact ⟨inv'.run ready, batch'.trans batch, stop'.trans stop, fun id member => same ▸ kept id member⟩
    · exact ⟨inv'.run ready, batch'.trans batch, stop'.trans stop,
        fun id member => posted ▸ List.mem_cons_of_mem _ (kept id member)⟩
  induction goes with
  | refl => exact ⟨inv, rfl, going, fun _ member => member⟩
  | @send s' n d goes ih =>
    obtain ⟨inv', batch, stop, kept⟩ := ih
    obtain ⟨batch', stop', same⟩ := s'.sendRequest_fields
    exact ⟨inv'.sendRequest, batch'.trans batch, stop'.trans stop, fun id member => same ▸ kept id member⟩
  | run goes ih => exact step true ih
  | wait goes ih => exact step false ih

/-- Every step of the thread counts for a request that is not finished; one that finds an operation which has not
completed costs a round. -/
theorem Goes.progress {n d : ℕ} (goes : Goes s n d s') (inv : s.Inv) (going : s.stop = false)
    (behind : Behind s id q i) : id ∈ s'.finished ∨ ∃ q' i', Behind s' id q' i' ∧
      s'.rank q' i' + n ≤ s.rank q i + d * (3 * s.batch + 1) := by
  induction goes with
  | refl => exact Or.inr ⟨q, i, behind, Nat.le_add_right ..⟩
  | @send s' n d goes ih =>
    rcases ih with finished | ⟨q', i', behind', counted⟩
    · exact Or.inl (s'.sendRequest_fields.2.2 ▸ finished)
    · obtain ⟨sent, same⟩ := behind'.send
      exact Or.inr ⟨q', i', sent, same ▸ counted⟩
  | @run s' n d goes ih =>
    obtain ⟨inv', batch, stop, _⟩ := goes.keeps inv going
    rcases ih with finished | ⟨q', i', behind', counted⟩
    · exact Or.inl ((Goes.run .refl).keeps inv' stop |>.2.2.2 id finished)
    · rcases behind'.run inv' stop true with finished | ⟨q'', i'', behind'', less⟩
      · exact Or.inl finished
      · rw [if_pos rfl] at less
        exact Or.inr ⟨q'', i'', behind'', by omega⟩
  | @wait s' n d goes ih =>
    obtain ⟨inv', batch, stop, _⟩ := goes.keeps inv going
    rcases ih with finished | ⟨q', i', behind', counted⟩
    · exact Or.inl ((Goes.wait .refl).keeps inv' stop |>.2.2.2 id finished)
    · rcases behind'.run inv' stop false with finished | ⟨q'', i'', behind'', less⟩
      · exact Or.inl finished
      · rw [if_neg Bool.false_ne_true, batch] at less
        rw [Nat.succ_mul]
        exact Or.inr ⟨q'', i'', behind'', by omega⟩

/-- An accepted request is finished, or in the channel or a place. -/
theorem Inv.exists_behind (inv : s.Inv) (accepted : id < s.accepted) (pending : id ∉ s.finished) :
    ∃ q i, Behind s id q i ∧ q ≤ s.channel.length := by
  obtain ⟨taken, keeps⟩ := inv.keeps
  rcases Nat.lt_or_ge id taken with early | late
  · obtain ⟨i, here⟩ := (keeps.owners.held id).mp ⟨early, pending⟩
    obtain ⟨req, there, named⟩ := Option.map_eq_some_iff.mp here
    exact ⟨0, i, .placed there named, Nat.zero_le _⟩
  · have member : ⟨id, .commit⟩ ∈ s.channel := by
      rw [keeps.channel]
      exact List.mem_map.mpr ⟨id, List.mem_range'_1.mpr ⟨late, by omega⟩, rfl⟩
    obtain ⟨front, rest, split⟩ := List.append_of_mem member
    refine ⟨front.length + 1, 0, .waits split rfl, ?_⟩
    rw [split, List.length_append, List.length_cons]
    omega

theorem stage_le (place : Option IORequest) : stage place ≤ 2 := by
  unfold stage
  split <;> omega

/-- The thread goes on in its round, unless the round or the loop is over. -/
theorem Inv.run_position (inv : s.Inv) (ready : Bool) :
    (s.run ready).pc = .ended ∧ (s.pc = .ended ∨ s.stop = true) ∨ s.stop = false ∧ (s.run ready).pc = .visit 0 ∨
      position s.pc < position (s.run ready).pc := by
  have here := inv.here
  cases at_pc : s.pc with
  | visit j =>
    rw [IOServer.run, at_pc]
    dsimp only
    split_ifs with inside stopped
    · apply Or.inr
      apply Or.inr
      cases s.asyncRequests j with
      | none =>
        obtain ⟨_, _, _, next | next⟩ := s.pop_fields j (.process j) (.visit (j + 1))
        all_goals
          dsimp only
          rw [next, position, position]
          omega
      | some req =>
        dsimp only [position]
        omega
    · exact Or.inl ⟨rfl, Or.inr stopped⟩
    · exact Or.inr (Or.inl ⟨Bool.eq_false_iff.mpr stopped, rfl⟩)
  | process j =>
    rw [at_pc] at here
    obtain ⟨_, req, there⟩ := here
    apply Or.inr
    apply Or.inr
    cases call : req.state.processFunc ready with
    | mk done state =>
      cases done with
      | true =>
        rw [run_post at_pc there call]
        dsimp only [position]
        omega
      | false =>
        rw [run_advance at_pc there call]
        dsimp only [position]
        omega
  | refill j =>
    rw [IOServer.run, at_pc]
    apply Or.inr
    apply Or.inr
    obtain ⟨_, _, _, next⟩ := s.pop_fields j (.visit (j + 1)) (.visit (j + 1))
    rw [or_self] at next
    dsimp only
    rw [next, position, position]
    omega
  | ended =>
    rw [IOServer.run, at_pc]
    exact Or.inl ⟨at_pc, Or.inl rfl⟩

/-- Nothing happens behind the loop. -/
theorem run_ended (ended : s.pc = .ended) (ready : Bool) : s.run ready = s := by rw [IOServer.run, ended]

theorem sendRequest_pc (s : IOServer) : s.sendRequest.2.pc = s.pc := by
  rw [sendRequest]
  split_ifs <;> rfl

theorem Goes.ended {n d : ℕ} (goes : Goes s n d s') (ended : s.pc = .ended) :
    s'.pc = .ended ∧ s'.finished = s.finished := by
  induction goes with
  | refl => exact ⟨ended, rfl⟩
  | @send s' n d goes ih => exact ⟨s'.sendRequest_pc.trans ih.1, s'.sendRequest_fields.2.2.trans ih.2⟩
  | run goes ih =>
    rw [run_ended ih.1]
    exact ih
  | wait goes ih =>
    rw [run_ended ih.1]
    exact ih

/-- After `stop_` is set the thread is behind the loop, or has come further by each step. -/
theorem Goes.stopping {n d : ℕ} (goes : Goes s n d s') (inv : s.Inv) (stopped : s.stop = true) :
    s'.Inv ∧ s'.stop = true ∧ s'.batch = s.batch ∧ (s'.pc = .ended ∨ n ≤ position s'.pc) := by
  have step {s' : IOServer} {n : ℕ} (ready : Bool)
      (before : s'.Inv ∧ s'.stop = true ∧ s'.batch = s.batch ∧ (s'.pc = .ended ∨ n ≤ position s'.pc)) :
      (s'.run ready).Inv ∧ (s'.run ready).stop = true ∧ (s'.run ready).batch = s.batch ∧
        ((s'.run ready).pc = .ended ∨ n + 1 ≤ position (s'.run ready).pc) := by
    obtain ⟨inv', stop, batch, far⟩ := before
    obtain ⟨batch', stop', _⟩ := inv'.run_cases ready
    refine ⟨inv'.run ready, stop'.trans stop, batch'.trans batch, ?_⟩
    rcases inv'.run_position ready with ⟨ended, _⟩ | ⟨going, _⟩ | further
    · exact Or.inl ended
    · exact absurd (going.symm.trans stop) Bool.false_ne_true
    · rcases far with ended | far
      · rw [run_ended ended] at further
        exact absurd further (lt_irrefl _)
      · exact Or.inr (Nat.succ_le_of_lt (far.trans_lt further))
  induction goes with
  | refl => exact ⟨inv, stopped, rfl, Or.inr (Nat.zero_le _)⟩
  | @send s' n d goes ih =>
    obtain ⟨inv', stop, batch, far⟩ := ih
    obtain ⟨batch', stop', _⟩ := s'.sendRequest_fields
    exact ⟨inv'.sendRequest, stop'.trans stop, batch'.trans batch, s'.sendRequest_pc ▸ far⟩
  | run goes ih => exact step true ih
  | wait goes ih => exact step false ih

end progress

/-- However the threads interleave, every request that `SendRequest` accepted is in one place: it waits in the channel
behind those accepted before it, it is in a place of `async_requests`, or it has been posted. Nothing is posted
twice, and nothing before its operation has completed. -/
theorem requests_kept (run : Run s) : (∃ taken, s.Keeps taken) ∧
    ∀ ready, (s.run ready).finished = s.finished ∨
      ready = true ∧ ∃ i req, s.pc = .process i ∧ s.asyncRequests i = some req ∧ req.state = .poll ∧
        (s.run ready).finished = req.id :: s.finished :=
  ⟨run.inv.keeps, fun ready => (run.inv.run_cases ready).2.2⟩

/-- Two requests for a server with one place. -/
def twoSent : IOServer := (new 1 2).sendRequest.2.sendRequest.2

theorem twoSent_run : Run twoSent := .step (.step (.init ⟨1, 2, Nat.one_pos, rfl⟩) (.send _)) (.send _)

theorem requests_kept_twoSent : ∃ taken, (twoSent.run true).Keeps taken :=
  (requests_kept (.step twoSent_run (.run _ true))).1

/-- A request that `SendRequest` accepted is posted, whatever is sent after it: the thread goes around once for each
operation that it finds not completed, and three times for each request in front of it. -/
theorem requests_finish {n d : ℕ} (run : Run s) (going : s.stop = false) (accepted : id < s.accepted)
    (goes : Goes s n d s') (rounds : (3 * (s.channel.length + 1) + d) * (3 * s.batch + 1) ≤ n) :
    id ∈ s'.finished := by
  obtain ⟨inv', batch, _, kept⟩ := goes.keeps run.inv going
  by_cases pending : id ∈ s.finished
  · exact kept id pending
  · obtain ⟨q, i, behind, front⟩ := run.inv.exists_behind accepted pending
    rcases goes.progress run.inv going behind with finished | ⟨q', i', _, counted⟩
    · exact finished
    · have bound : s.rank q i < 3 * (s.channel.length + 1) * (3 * s.batch + 1) := by
        have near := run.inv.distance_le (run.inv.placed_lt behind)
        have steps : 3 * q + stage (s.asyncRequests i) + 1 ≤ 3 * (s.channel.length + 1) := by
          have := stage_le (s.asyncRequests i)
          omega
        have mult := Nat.mul_le_mul_right (3 * s.batch + 1) steps
        rw [Nat.succ_mul] at mult
        rw [rank]
        omega
      rw [Nat.add_mul] at rounds
      omega

/-- The destructor waits for one round at most. What has been accepted and not been posted by then never is. -/
theorem stop_ends {n d : ℕ} (run : Run s) (stopped : s.stop = true) (goes : Goes s n d s')
    (round : 3 * s.batch + 1 ≤ n) :
    s'.pc = .ended ∧ ∀ m e s'', Goes s' m e s'' → s''.finished = s'.finished := by
  obtain ⟨inv', _, batch, far⟩ := goes.stopping run.inv stopped
  have ended : s'.pc = .ended := by
    rcases far with ended | far
    · exact ended
    · have := inv'.position_le
      omega
  exact ⟨ended, fun m e s'' goes' => (goes'.ended ended).2⟩

theorem Goes.iterate (s : IOServer) (n : ℕ) : Goes s n 0 ((IOServer.run · true)^[n] s) := by
  induction n with
  | zero => exact .refl
  | succ n ih =>
    rw [iterate_succ_apply']
    exact ih.run

theorem requests_finish_twoSent : 1 ∈ ((IOServer.run · true)^[36] twoSent).finished :=
  requests_finish twoSent_run rfl (by decide) (Goes.iterate twoSent 36) (by decide)

theorem stop_ends_twoSent : ((IOServer.run · false)^[4] { twoSent with stop := true }).pc = .ended := by
  have goes : Goes { twoSent with stop := true } 4 4 ((IOServer.run · false)^[4] { twoSent with stop := true }) :=
    .wait (.wait (.wait (.wait .refl)))
  exact (stop_ends (.step twoSent_run (.stop _)) rfl goes (by decide)).1

end IOServer

end Gbp
