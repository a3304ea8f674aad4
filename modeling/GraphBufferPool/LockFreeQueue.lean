import GraphBufferPool.Lib.Reach
import GraphBufferPool.Lib.Ring

/-! # `LockFreeQueue` with one producer and one consumer

The calls of `push` by one thread and of `pop` by another, interleaved at their loads and stores of `head_` and
`tail_` and their accesses to the slots, with the results of the calls that have returned. Each thread acts on a
view of the other's index that may be out of date; what it then does is right for every later state as well,
since the other thread only makes room, or only adds elements.
-/

namespace Gbp

/-- `LockFreeQueue<T>`. -/
structure LockFreeQueue (α : Type) where
  capacity : ℕ
  buffer : ℕ → α
  head : ℕ
  tail : ℕ

namespace LockFreeQueue

variable {α : Type}

/-- The constructor; a capacity below 1 raises an exception. -/
def new? [Inhabited α] (capacity : ℕ) : Option (LockFreeQueue α) :=
  if capacity < 1 then none else some ⟨capacity, fun _ => default, 0, 0⟩

/-- `increment`. -/
def increment (queue : LockFreeQueue α) (idx : ℕ) : ℕ := (idx + 1) % queue.capacity

/-- Where the producer is in `push`: what it does next, with the values it has. -/
inductive PushPc (α : Type)
  | idle
  | loadTail (item : α)
  | loadHead (item : α) (tail nextTail : ℕ)
  | write (item : α) (tail nextTail : ℕ)
  | storeTail (item : α) (nextTail : ℕ)

/-- Where the consumer is in `pop`. -/
inductive PopPc (α : Type)
  | idle
  | loadHead
  | loadTail (head : ℕ)
  | read (head : ℕ)
  | storeHead (head : ℕ) (item : α)

/-- The item of the call of `push` that the producer is in. -/
def PushPc.item? : PushPc α → Option α
  | .idle => none
  | .loadTail item | .loadHead item _ _ | .write item _ _ | .storeTail item _ => some item

/-- The queue, its two threads, and the calls that have returned: of `push` the item and the result, of `pop` the
item where it returned true. -/
structure State (α : Type) where
  queue : LockFreeQueue α
  producer : PushPc α
  consumer : PopPc α
  pushes : List (α × Bool)
  pops : List (Option α)

namespace State

/-- The items of the calls of `push` that returned true. -/
def pushed (s : State α) : List α := s.pushes.filterMap fun call => if call.2 then some call.1 else none

/-- The items of the calls of `pop` that returned true. -/
def popped (s : State α) : List α := s.pops.filterMap id

/-- The next atomic step of `push`; where `head_` equals the next tail the call returns false. -/
def produce (s : State α) : State α :=
  match s.producer with
  | .idle => s
  | .loadTail item =>
    { s with producer := .loadHead item s.queue.tail (s.queue.increment s.queue.tail) }
  | .loadHead item tail nextTail =>
    if nextTail = s.queue.head then { s with producer := .idle, pushes := s.pushes ++ [(item, false)] }
    else { s with producer := .write item tail nextTail }
  | .write item tail nextTail =>
    { s with
      queue := { s.queue with buffer := Function.update s.queue.buffer tail item }
      producer := .storeTail item nextTail }
  | .storeTail item nextTail =>
    { s with
      queue := { s.queue with tail := nextTail }
      producer := .idle
      pushes := s.pushes ++ [(item, true)] }

/-- The next atomic step of `pop`; where `tail_` equals the head the call returns false. -/
def consume (s : State α) : State α :=
  match s.consumer with
  | .idle => s
  | .loadHead => { s with consumer := .loadTail s.queue.head }
  | .loadTail head =>
    if head = s.queue.tail then { s with consumer := .idle, pops := s.pops ++ [none] }
    else { s with consumer := .read head }
  | .read head => { s with consumer := .storeHead head (s.queue.buffer head) }
  | .storeHead head item =>
    { s with
      queue := { s.queue with head := s.queue.increment head }
      consumer := .idle
      pops := s.pops ++ [some item] }

/-- The number of elements in the queue. -/
def held (s : State α) : ℕ := s.pushed.length - s.popped.length

/-- The producer is about to read `head_`. -/
def ReadsHead (s : State α) : Prop := ∃ item tail nextTail, s.producer = .loadHead item tail nextTail

/-- The consumer is about to read `tail_`. -/
def ReadsTail (s : State α) : Prop := ∃ head, s.consumer = .loadTail head

/-- The slots that the consumer may still read: of the elements in the queue. -/
def MayRead (s : State α) (slot : ℕ) : Prop :=
  s.consumer = .read slot ∨ ∃ k < s.held, slot = (s.queue.head + k) % s.queue.capacity

/-- A new queue with both threads outside their calls. -/
def Init [Inhabited α] (s : State α) : Prop :=
  ∃ capacity queue, new? capacity = some queue ∧ s = ⟨queue, .idle, .idle, [], []⟩

/-- The steps of the two threads: a call of `push` or `pop`, or the next atomic step of one. -/
inductive Step : State α → State α → Prop
  | push {s : State α} (item : α) (free : s.producer = .idle) : Step s { s with producer := .loadTail item }
  | pop {s : State α} (free : s.consumer = .idle) : Step s { s with consumer := .loadHead }
  | produce (s : State α) : Step s s.produce
  | consume (s : State α) : Step s s.consume

/-- What holds of the queue in every state. -/
structure Safe (s : State α) : Prop where
  order : s.popped <+: s.pushed
  unread : ∀ item slot nextTail, s.producer = .write item slot nextTail → ¬ s.MayRead slot

/-- What a step does to the calls: one that ends has a result, and one that ends with false has just read the index
of the other thread, with the queue full for a `push` and empty for a `pop`. No other result is added. -/
structure Answers (s s' : State α) : Prop where
  pushReturns : s.producer.item?.isSome → s'.producer = .idle → ∃ item result, s.producer.item? = some item ∧
    s'.pushes = s.pushes ++ [(item, result)] ∧ (result = false → s.ReadsHead ∧ s.held = s.queue.capacity - 1)
  pushGoesOn : ¬ (s.producer.item?.isSome ∧ s'.producer = .idle) → s'.pushes = s.pushes
  popReturns : s.consumer ≠ .idle → s'.consumer = .idle → ∃ result, s'.pops = s.pops ++ [result] ∧
    (result = none → s.ReadsTail ∧ s.held = 0)
  popGoesOn : ¬ (s.consumer ≠ .idle ∧ s'.consumer = .idle) → s'.pops = s.pops

/-- What the producer knows. -/
def ProducerAt (s : State α) : Prop :=
  match s.producer with
  | .idle | .loadTail _ => True
  | .loadHead _ tail nextTail => tail = s.queue.tail ∧ nextTail = s.queue.increment tail
  | .write _ tail nextTail => tail = s.queue.tail ∧ nextTail = s.queue.increment tail ∧
      s.pushed.length + 1 < s.popped.length + s.queue.capacity
  | .storeTail item nextTail => nextTail = s.queue.increment s.queue.tail ∧
      s.pushed.length + 1 < s.popped.length + s.queue.capacity ∧ s.queue.buffer s.queue.tail = item

/-- What the consumer knows. -/
def ConsumerAt (s : State α) : Prop :=
  match s.consumer with
  | .idle | .loadHead => True
  | .loadTail head => head = s.queue.head
  | .read head => head = s.queue.head ∧ s.popped.length < s.pushed.length
  | .storeHead head item => head = s.queue.head ∧ s.pushed[s.popped.length]? = some item

/-- The ring of the elements in the queue, and what the threads know about it. -/
structure Inv (s : State α) : Prop where
  positive : 0 < s.queue.capacity
  order : s.popped <+: s.pushed
  room : s.pushed.length < s.popped.length + s.queue.capacity
  tail : s.queue.tail = s.pushed.length % s.queue.capacity
  head : s.queue.head = s.popped.length % s.queue.capacity
  window : Ring.Window s.queue.capacity s.queue.buffer s.pushed s.popped.length
  producer : s.ProducerAt
  consumer : s.ConsumerAt

variable {s s' : State α}

section results

variable (s : State α) (producer : PushPc α) (consumer : PopPc α) (queue : LockFreeQueue α) (item : α)

theorem pushed_false : State.pushed ⟨queue, producer, consumer, s.pushes ++ [(item, false)], s.pops⟩ = s.pushed := by
  simp [pushed]

theorem pushed_true :
    State.pushed ⟨queue, producer, consumer, s.pushes ++ [(item, true)], s.pops⟩ = s.pushed ++ [item] := by
  simp [pushed]

theorem popped_none : State.popped ⟨queue, producer, consumer, s.pushes, s.pops ++ [none]⟩ = s.popped := by
  simp [popped]

theorem popped_some :
    State.popped ⟨queue, producer, consumer, s.pushes, s.pops ++ [some item]⟩ = s.popped ++ [item] := by
  simp [popped]

end results

theorem Init.inv [Inhabited α] (initial : s.Init) : s.Inv := by
  obtain ⟨capacity, queue, built, rfl⟩ := initial
  unfold new? at built
  split_ifs at built with none
  cases built
  have positive : 0 < capacity := by omega
  exact ⟨positive, List.prefix_rfl, by simpa [pushed, popped] using positive, (Nat.zero_mod _).symm,
    (Nat.zero_mod _).symm, Ring.window_nil, trivial, trivial⟩

/-- The next index of the queue. -/
theorem increment_mod (queue : LockFreeQueue α) (n : ℕ) :
    queue.increment (n % queue.capacity) = (n + 1) % queue.capacity := by
  rw [increment, Nat.mod_add_mod]

/-- The consumer needs nothing of the producer but that elements stay. -/
theorem ConsumerAt.grow (known : s.ConsumerAt) (consumer : s'.consumer = s.consumer) (head : s'.queue.head = s.queue.head)
    (popped : s'.popped = s.popped) (pushed : s.pushed <+: s'.pushed) : s'.ConsumerAt := by
  unfold ConsumerAt at known ⊢
  rw [consumer, head, popped]
  cases at_ : s.consumer with
  | idle => trivial
  | loadHead => trivial
  | loadTail head =>
    rw [at_] at known
    exact known
  | read head =>
    rw [at_] at known
    exact ⟨known.1, known.2.trans_le pushed.length_le⟩
  | storeHead head item =>
    rw [at_] at known
    obtain ⟨more, same⟩ := pushed
    obtain ⟨inside, value⟩ := List.getElem?_eq_some_iff.mp known.2
    refine ⟨known.1, ?_⟩
    rw [← same, List.getElem?_append_left inside]
    exact known.2

/-- The producer needs nothing of the consumer but that room stays. -/
theorem ProducerAt.drain (known : s.ProducerAt) (producer : s'.producer = s.producer) (tail : s'.queue.tail = s.queue.tail)
    (capacity : s'.queue.capacity = s.queue.capacity) (buffer : s'.queue.buffer = s.queue.buffer)
    (pushed : s'.pushed = s.pushed) (popped : s.popped.length ≤ s'.popped.length) : s'.ProducerAt := by
  unfold ProducerAt increment at known ⊢
  rw [producer, tail, capacity, buffer, pushed]
  cases at_ : s.producer with
  | idle => trivial
  | loadTail item => trivial
  | loadHead item tail nextTail =>
    rw [at_] at known
    exact known
  | write item tail nextTail =>
    rw [at_] at known
    exact ⟨known.1, known.2.1, by omega⟩
  | storeTail item nextTail =>
    rw [at_] at known
    exact ⟨known.1, by omega, known.2.2⟩

/-- A step that leaves the queue and its elements alone. -/
theorem Inv.same (inv : s.Inv) (queue : s'.queue = s.queue) (pushed : s'.pushed = s.pushed) (popped : s'.popped = s.popped)
    (producer : s'.ProducerAt) (consumer : s'.ConsumerAt) : s'.Inv where
  positive := queue ▸ inv.positive
  order := by
    rw [pushed, popped]
    exact inv.order
  room := by
    rw [queue, pushed, popped]
    exact inv.room
  tail := by
    rw [queue, pushed]
    exact inv.tail
  head := by
    rw [queue, popped]
    exact inv.head
  window := by
    rw [queue, pushed, popped]
    exact inv.window
  producer := producer
  consumer := consumer

theorem Inv.producer_moves (inv : s.Inv) (queue : s'.queue = s.queue) (consumer : s'.consumer = s.consumer)
    (pushed : s'.pushed = s.pushed) (popped : s'.popped = s.popped) (known : s'.ProducerAt) : s'.Inv :=
  inv.same queue pushed popped known (inv.consumer.grow consumer (by rw [queue]) popped (by rw [pushed]))

theorem Inv.consumer_moves (inv : s.Inv) (queue : s'.queue = s.queue) (producer : s'.producer = s.producer)
    (pushed : s'.pushed = s.pushed) (popped : s'.popped = s.popped) (known : s'.ConsumerAt) : s'.Inv :=
  inv.same queue pushed popped
    (inv.producer.drain producer (by rw [queue]) (by rw [queue]) (by rw [queue]) pushed (by rw [popped])) known

theorem Inv.produce (inv : s.Inv) : s.produce.Inv := by
  have known := inv.producer
  have few := inv.order.length_le
  unfold State.produce
  unfold ProducerAt at known
  cases at_ : s.producer with
  | idle => exact inv
  | loadTail item => exact inv.producer_moves rfl rfl rfl rfl ⟨rfl, rfl⟩
  | loadHead item tail nextTail =>
    rw [at_] at known
    obtain ⟨rfl, rfl⟩ := known
    dsimp only
    split_ifs with full
    · exact inv.producer_moves rfl rfl (pushed_false s _ _ _ item) rfl trivial
    · refine inv.producer_moves rfl rfl rfl rfl ⟨rfl, rfl, ?_⟩
      -- A ring with one slot left has the next tail at the head.
      change s.pushed.length + 1 < s.popped.length + s.queue.capacity
      by_contra none
      have room := inv.room
      refine full ?_
      rw [inv.tail, inv.head, increment_mod, show s.pushed.length + 1 = s.popped.length + s.queue.capacity by omega,
        Nat.add_mod_right]
  | write item tail nextTail =>
    rw [at_] at known
    obtain ⟨rfl, rfl, space⟩ := known
    refine ⟨inv.positive, inv.order, inv.room, inv.tail, inv.head, ?_, ⟨rfl, space, Function.update_self ..⟩,
      inv.consumer.grow rfl rfl rfl List.prefix_rfl⟩
    rw [inv.tail]
    exact inv.window.write inv.room item
  | storeTail item nextTail =>
    rw [at_] at known
    obtain ⟨rfl, space, value⟩ := known
    have longer := pushed_true s .idle s.consumer
      { s.queue with tail := s.queue.increment s.queue.tail } item
    refine ⟨inv.positive, ?_, ?_, ?_, inv.head, ?_, trivial, inv.consumer.grow rfl rfl rfl ?_⟩
    · rw [longer]
      exact inv.order.trans (List.prefix_append ..)
    · rw [longer, List.length_append, List.length_singleton]
      exact space
    · rw [longer, List.length_append, List.length_singleton]
      change s.queue.increment s.queue.tail = _
      rw [inv.tail, increment_mod]
    · rw [longer]
      rw [inv.tail] at value
      exact inv.window.enqueue value
    · rw [longer]
      exact List.prefix_append ..

theorem Inv.consume (inv : s.Inv) : s.consume.Inv := by
  have known := inv.consumer
  have few := inv.order.length_le
  unfold State.consume
  unfold ConsumerAt at known
  cases at_ : s.consumer with
  | idle => exact inv
  | loadHead => exact inv.consumer_moves rfl rfl rfl rfl rfl
  | loadTail head =>
    rw [at_] at known
    obtain rfl := known
    dsimp only
    split_ifs with none
    · exact inv.consumer_moves rfl rfl rfl (popped_none s ..) trivial
    · refine inv.consumer_moves rfl rfl rfl rfl ⟨rfl, ?_⟩
      refine Nat.lt_of_le_of_ne few fun same => none ?_
      have same : s.popped.length = s.pushed.length := same
      rw [inv.head, inv.tail, same]
  | read head =>
    rw [at_] at known
    obtain ⟨rfl, waits⟩ := known
    refine inv.consumer_moves rfl rfl rfl rfl ⟨rfl, ?_⟩
    have here := List.getElem?_eq_getElem waits
    change s.pushed[s.popped.length]? = some (s.queue.buffer s.queue.head)
    rw [here, inv.head, inv.window _ _ le_rfl here]
  | storeHead head item =>
    rw [at_] at known
    obtain ⟨rfl, here⟩ := known
    have longer := popped_some s s.producer .idle { s.queue with head := s.queue.increment s.queue.head } item
    have one : (s.popped ++ [item]).length = s.popped.length + 1 := by simp
    have room := inv.room
    refine ⟨inv.positive, ?_, ?_, inv.tail, ?_, ?_, inv.producer.drain rfl rfl rfl rfl rfl ?_, trivial⟩
    · rw [longer]
      change s.popped ++ [item] <+: s.pushed
      rw [List.prefix_iff_eq_take, one, List.take_add_one, here, ← List.prefix_iff_eq_take.mp inv.order]
      rfl
    · rw [longer, one]
      change s.pushed.length < s.popped.length + 1 + s.queue.capacity
      omega
    · rw [longer, one]
      change s.queue.increment s.queue.head = _
      rw [inv.head, increment_mod]
    · rw [longer, one]
      exact inv.window.dequeue
    · rw [longer, one]
      omega

theorem Inv.step (inv : s.Inv) (step : Step s s') : s'.Inv := by
  cases step with
  | push item free => exact inv.producer_moves rfl rfl rfl rfl trivial
  | pop free => exact inv.consumer_moves rfl rfl rfl rfl trivial
  | produce => exact inv.produce
  | consume => exact inv.consume

/-- The slot that the producer writes is not that of an element in the queue. -/
theorem Inv.unread (inv : s.Inv) {item : α} {slot nextTail : ℕ} (writes : s.producer = .write item slot nextTail) :
    ¬ s.MayRead slot := by
  have known := inv.producer
  have few := inv.order.length_le
  have room := inv.room
  unfold ProducerAt at known
  rw [writes] at known
  obtain ⟨rfl, -, space⟩ := known
  have apart (k : ℕ) (waits : k < s.held) : s.queue.tail ≠ (s.queue.head + k) % s.queue.capacity := by
    unfold held at waits
    rw [inv.tail, inv.head, Nat.mod_add_mod]
    intro same
    have met := @Ring.eq_of_slot_eq s.queue.capacity (s.popped.length + k) s.pushed.length (by omega) (by omega) same
    omega
  rintro (reads | ⟨k, waits, same⟩)
  · have position := inv.consumer
    unfold ConsumerAt at position
    rw [reads] at position
    obtain ⟨here, waits⟩ := position
    refine apart 0 (Nat.sub_pos_of_lt waits) ?_
    rw [here, Nat.add_zero, inv.head, Nat.mod_mod]
  · exact apart k waits same

theorem Inv.safe (inv : s.Inv) : s.Safe := ⟨inv.order, fun _ _ _ writes => inv.unread writes⟩

/-- Where the next tail is the head, the queue is full. -/
theorem Inv.full (inv : s.Inv) {item : α} {tail : ℕ} (at_ : s.producer = .loadHead item tail s.queue.head) :
    s.held = s.queue.capacity - 1 := by
  have known := inv.producer
  unfold ProducerAt at known
  rw [at_] at known
  obtain ⟨rfl, full⟩ := known
  rw [inv.head, inv.tail, increment_mod] at full
  have met := Ring.full_of_slot_eq inv.order.length_le inv.room full.symm
  unfold held
  omega

/-- Where the tail is the head, the queue is empty. -/
theorem Inv.empty (inv : s.Inv) (at_ : s.consumer = .loadTail s.queue.tail) : s.held = 0 := by
  have known := inv.consumer
  unfold ConsumerAt at known
  rw [at_] at known
  have same : s.queue.tail = s.queue.head := known
  rw [inv.tail, inv.head] at same
  have met := Ring.eq_of_slot_eq inv.order.length_le inv.room same
  unfold held
  omega

/-- A step of the producer answers its call of `push` or goes on with it. -/
theorem Inv.answers_produce (inv : s.Inv) : s.Answers s.produce := by
  have consumer : s.produce.consumer = s.consumer ∧ s.produce.pops = s.pops := by
    unfold State.produce
    cases s.producer with
    | idle | loadTail | write | storeTail => exact ⟨rfl, rfl⟩
    | loadHead => dsimp only; split_ifs <;> exact ⟨rfl, rfl⟩
  refine ⟨?_, ?_, fun busy idle => absurd (consumer.1.symm.trans idle) busy, fun _ => consumer.2⟩
  all_goals
    unfold State.produce
    cases at_ : s.producer with
    | idle => simp [PushPc.item?, at_]
    | loadTail item => simp [PushPc.item?]
    | write item tail nextTail => simp [PushPc.item?]
    | storeTail item nextTail => simp [PushPc.item?]
    | loadHead item tail nextTail =>
      dsimp only
      split_ifs with full
      · subst full
        simp [PushPc.item?, inv.full at_, ReadsHead, at_]
      · simp [PushPc.item?]

/-- A step of the consumer answers its call of `pop` or goes on with it. -/
theorem Inv.answers_consume (inv : s.Inv) : s.Answers s.consume := by
  have producer : s.consume.producer = s.producer ∧ s.consume.pushes = s.pushes := by
    unfold State.consume
    cases s.consumer with
    | idle | loadHead | read | storeHead => exact ⟨rfl, rfl⟩
    | loadTail => dsimp only; split_ifs <;> exact ⟨rfl, rfl⟩
  refine ⟨fun busy idle => ?_, fun _ => producer.2, ?_, ?_⟩
  · rw [← producer.1, idle] at busy
    cases busy
  all_goals
    unfold State.consume
    cases at_ : s.consumer with
    | idle => simp [at_]
    | loadHead => simp
    | read head => simp
    | storeHead head item => simp
    | loadTail head =>
      dsimp only
      split_ifs with none
      · subst none
        simp [inv.empty at_, ReadsTail, at_]
      · simp

theorem Inv.answers (inv : s.Inv) (step : Step s s') : s.Answers s' := by
  cases step with
  | push item free =>
    refine ⟨fun _ idle => ?_, fun _ => rfl, fun busy idle => absurd idle busy, fun _ => rfl⟩
    cases idle
  | pop free =>
    refine ⟨fun busy idle => ?_, fun _ => rfl, fun _ idle => ?_, fun _ => rfl⟩
    · have idle : s.producer = .idle := idle
      rw [idle] at busy
      cases busy
    · cases idle
  | produce => exact inv.answers_produce
  | consume => exact inv.answers_consume

end State

/-- In every interleaving of one producer and one consumer the items popped are the first of those pushed, in
order; no slot is written that may still be read; and a call returns false only right after it has read the index
of the other thread, on a full or an empty queue. -/
theorem single_producer_consumer [Inhabited α] {s : State α} (run : Machine.Reach State.Init State.Step s) :
    s.Safe ∧ ∀ s', State.Step s s' → s.Answers s' := by
  have inv : s.Inv := run.invariant (fun _ initial => State.Init.inv initial) fun _ _ inv step => State.Inv.step inv step
  exact ⟨inv.safe, fun _ step => inv.answers step⟩

/-- A queue for one element: one `push` returns true, a second one false, and the `pop` in between waits. -/
def pushedTwice : State ℕ :=
  ⟨⟨2, Function.update (fun _ => 0) 0 7, 0, 1⟩, .idle, .loadTail 0, [(7, true), (8, false)], []⟩

theorem pushedTwice_run : Machine.Reach State.Init State.Step pushedTwice := by
  have start : Machine.Reach State.Init State.Step
      (⟨⟨2, fun _ => 0, 0, 0⟩, .idle, .idle, [], []⟩ : State ℕ) := .init ⟨2, _, rfl, rfl⟩
  have called := (start.step (.push 7 rfl)).step (.pop rfl)
  have pushed := (((called.step (.produce _)).step (.produce _)).step (.produce _)).step (.produce _)
  exact (((pushed.step (.push 8 rfl)).step (.consume _)).step (.produce _)).step (.produce _)

/-- The waiting `pop` finds the element of the first `push`. -/
theorem single_producer_consumer_pushedTwice : pushedTwice.Safe ∧ pushedTwice.consume.consumer = .read 0 ∧
    pushedTwice.Answers pushedTwice.consume ∧ pushedTwice.consume.consume.consume.pops = [some 7] ∧
      pushedTwice.consume.consume.Answers pushedTwice.consume.consume.consume := by
  have read := (pushedTwice_run.step (.consume _)).step (.consume _)
  exact ⟨(single_producer_consumer pushedTwice_run).1, rfl, (single_producer_consumer pushedTwice_run).2 _ (.consume _),
    rfl, (single_producer_consumer read).2 _ (.consume _)⟩

end LockFreeQueue

end Gbp
