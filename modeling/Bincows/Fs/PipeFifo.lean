import Bincows.Fs.Pipes

set_option autoImplicit false

namespace Bincows.Pipefs

open CircularBuffer List

variable {A : Type} {f : File A} {xs : List A} {b : Batch} {remaining waiter size position : Nat}
  {s s' : State A} {c : Call A}

structure File.Holds (f : File A) (xs : List A) : Prop where
  size : f.buffer.length = pipeSize
  head : f.head ≤ pipeSize
  tail : f.tail ≤ pipeSize
  window : Window f.buffer f.head xs
  place : (f.head ≤ f.tail ∧ f.tail = f.head + xs.length) ∨ (f.tail < f.head ∧ f.tail + pipeSize = f.head + xs.length)

def Limited (position size : Nat) (b : Batch) : Prop :=
  (b.wrap = true ∧ advance position b = 0 ∧ position + b.size = pipeSize ∧ b.size < size) ∨
    (advance position b = position + b.size ∧ b.size = size ∧ position + size ≤ pipeSize)

theorem limitBatch_limited {block : Bool} (bound : position ≤ pipeSize)
    (result : limitBatch position size block = .ok b) : Limited position size b := by
  rw [limitBatch] at result
  split at result
  next far =>
    cases block with
    | true => cases result
    | false =>
      cases result
      exact .inl ⟨rfl, rfl, Nat.add_sub_cancel' bound, far⟩
  next far =>
    cases result
    exact .inr ⟨rfl, rfl, by omega⟩

theorem Limited.next (limited : Limited position size b) :
    advance position b % pipeSize = (position + b.size) % pipeSize := by
  rcases limited with ⟨-, start, full, -⟩ | ⟨onward, -⟩
  · rw [start, full, Nat.mod_self, Nat.zero_mod]
  · rw [onward]

theorem readBatch_limited (holds : f.Holds xs) (small : f.head + remaining < 2 ^ 32)
    (result : readBatch f remaining = .ok b) :
    ∃ size, Limited f.head size b ∧ size ≤ remaining ∧ (f.head ≤ f.tail -> f.head + size ≤ f.tail) := by
  rw [readBatch, Nat.mod_eq_of_lt small] at result
  split at result
  next short =>
    exact ⟨_, limitBatch_limited holds.head result, by omega, by omega⟩
  next short =>
    exact ⟨_, limitBatch_limited holds.head result, by omega, by omega⟩

theorem writeBatch_limited (holds : f.Holds xs) (small : f.tail + remaining < 2 ^ 32)
    (result : writeBatch f remaining = .ok b) :
    ∃ size, Limited f.tail size b ∧ size ≤ remaining ∧ (f.tail < f.head -> f.tail + size < f.head) := by
  rw [writeBatch, Nat.mod_eq_of_lt small] at result
  split at result
  next short =>
    exact ⟨_, limitBatch_limited holds.tail result, by omega, by omega⟩
  next short =>
    exact ⟨_, limitBatch_limited holds.tail result, by omega, by omega⟩

theorem File.Holds.read (holds : f.Holds xs) (small : f.head + remaining < 2 ^ 32) (result : readBatch f remaining = .ok b) :
    b.size ≤ remaining ∧ b.size ≤ xs.length ∧ (f.buffer.drop f.head).take b.size = xs.take b.size ∧
      ({ f with head := advance f.head b } : File A).Holds (xs.drop b.size) := by
  have tailBound := holds.tail
  have place := holds.place
  obtain ⟨size, limited, inside, available⟩ := readBatch_limited holds small result
  have next := limited.next
  rw [← holds.size] at next
  have enough : b.size ≤ remaining ∧ b.size ≤ xs.length ∧ f.head + b.size ≤ f.buffer.length := by
    rw [holds.size]
    rw [Limited] at limited
    omega
  refine ⟨enough.1, enough.2.1, window_take holds.window enough.2.2 enough.2.1, holds.size, ?_,
    tailBound, window_drop holds.window next, ?_⟩
  · show advance f.head b ≤ pipeSize
    rw [Limited] at limited
    omega
  · show (advance f.head b ≤ f.tail ∧ f.tail = advance f.head b + (xs.drop b.size).length) ∨
      (f.tail < advance f.head b ∧ f.tail + pipeSize = advance f.head b + (xs.drop b.size).length)
    rw [length_drop]
    rw [Limited] at limited
    omega

theorem File.Holds.write (holds : f.Holds xs) (small : f.tail + remaining < 2 ^ 32)
    (result : writeBatch f remaining = .ok b) (free : b.wrap = true -> f.head ≠ 0) :
    b.size ≤ remaining ∧ xs.length + b.size ≤ pipeSize ∧ ∀ data : List A, data.length = b.size ->
      ({ f with buffer := store f.buffer f.tail data, tail := advance f.tail b } : File A).Holds (xs ++ data) := by
  have headBound := holds.head
  have place := holds.place
  obtain ⟨size, limited, inside, available⟩ := writeBatch_limited holds small result
  rw [Limited] at limited
  have enough : b.size ≤ remaining ∧ f.tail + b.size ≤ pipeSize ∧ xs.length + b.size ≤ pipeSize := by omega
  refine ⟨enough.1, enough.2.2, ?_⟩
  intro data length
  have fits : f.tail + data.length ≤ f.buffer.length := by rw [holds.size]; omega
  have position : f.tail % f.buffer.length = (f.head + xs.length) % f.buffer.length := by
    rcases place with ⟨-, same⟩ | ⟨-, round⟩
    · rw [same]
    · rw [← round, ← holds.size, Nat.add_mod_right]
  refine ⟨?_, headBound, ?_, window_append holds.window position fits (by rw [holds.size]; omega), ?_⟩
  · rw [length_store fits]
    exact holds.size
  · show advance f.tail b ≤ pipeSize
    omega
  · show (f.head ≤ advance f.tail b ∧ advance f.tail b = f.head + (xs ++ data).length) ∨
      (advance f.tail b < f.head ∧ advance f.tail b + pipeSize = f.head + (xs ++ data).length)
    rw [length_append, length]
    rcases limited with ⟨wraps, limited⟩ | limited
    · have := free wraps
      omega
    · omega

def inFlight (s : State A) : List A :=
  match s.holder with
  | some c => if c.kind = .read then c.buf.take c.count else []
  | none => []

def Call.Sound (c : Call A) : Prop := c.remaining ≤ c.n % 2 ^ 32 ∧ c.buf.length = c.n

structure Fifo (s : State A) (xs : List A) : Prop where
  holds : s.file.Holds xs
  history : s.accepted = s.delivered ++ inFlight s ++ xs
  capacity : (inFlight s).length + xs.length ≤ pipeSize
  calls : ∀ c, s.holder = some c ∨ c ∈ s.waiting ∨ c ∈ s.woken -> c.Sound
  blocked : ∀ c, c ∈ s.waiting ∨ c ∈ s.woken -> c.kind = .read -> c.count = 0
  free : s.locked = false -> s.holder = none

def Safe (s : State A) : Action A -> Prop
  | .round => ∀ c, s.holder = some c -> c.remaining ≠ 0 -> s.file.broken = none ->
    match c.kind with
    | .read => s.file.head + c.remaining < 2 ^ 32 ∧
      ∀ b, readBatch s.file c.remaining = .ok b -> c.count = 0 ∨ b.size = 0
    | .write => s.file.tail + c.remaining < 2 ^ 32 ∧
      ∀ b, writeBatch s.file c.remaining = .ok b -> (c.count = 0 ∨ b.size = 0) ∧ (b.wrap = true -> s.file.head ≠ 0)
  | _ => True

theorem inFlight_read (running : s.holder = some c) (kind : c.kind = .read) : inFlight s = c.buf.take c.count := by
  rw [inFlight, running]
  exact if_pos kind

theorem inFlight_nothing (running : s.holder = some c) (fresh : c.kind = .read -> c.count = 0) : inFlight s = [] := by
  by_cases read : c.kind = .read
  · rw [inFlight_read running read, fresh read, take_zero]
  · rw [inFlight, running]
    exact if_neg read

def Call.Waits (c : Call A) : Prop := c.Sound ∧ (c.kind = .read -> c.count = 0)

theorem Fifo.next {ys : List A} (fifo : Fifo s xs) (holds : s'.file.Holds ys)
    (history : s'.accepted = s'.delivered ++ inFlight s' ++ ys) (capacity : (inFlight s').length + ys.length ≤ pipeSize)
    (running : ∀ c, s'.holder = some c -> c.Sound)
    (others : ∀ c, c ∈ s'.waiting ∨ c ∈ s'.woken -> (c ∈ s.waiting ∨ c ∈ s.woken) ∨ c.Waits)
    (free : s'.locked = false -> s'.holder = none) : Fifo s' ys := by
  have waits : ∀ c, c ∈ s'.waiting ∨ c ∈ s'.woken -> c.Waits := by
    intro c there
    rcases others c there with old | new
    · exact ⟨fifo.calls c (.inr old), fifo.blocked c old⟩
    · exact new
  refine ⟨holds, history, capacity, ?_, fun c there => (waits c there).2, free⟩
  rintro c (runs | there)
  · exact running c runs
  · exact (waits c there).1

theorem Fifo.wake (fifo : Fifo s xs) : Fifo (broadcastWaiters s) xs := by
  refine fifo.next fifo.holds fifo.history fifo.capacity (fun c runs => fifo.calls c (.inl runs))
    (fun c woken => .inl ?_) fifo.free
  simpa [broadcastWaiters, or_comm] using woken

theorem Fifo.told (fifo : Fifo s xs) (size : Nat) : Fifo (if size ≠ 0 then broadcastWaiters s else s) xs ∧
    (if size ≠ 0 then broadcastWaiters s else s).holder = s.holder := by
  split
  · exact ⟨fifo.wake, rfl⟩
  · exact ⟨fifo, rfl⟩

theorem Fifo.wait (fifo : Fifo s xs) (running : s.holder = some c)
    (fresh : c.kind = .read -> c.count = 0) : Fifo (waitForBuffer s c) xs := by
  have history := fifo.history
  have capacity := fifo.capacity
  rw [inFlight_nothing running fresh] at history capacity
  refine fifo.next fifo.holds history capacity nofun ?_ fun _ => rfl
  rintro c' (waiting | woken)
  · rcases mem_concat.mp waiting with old | rfl
    · exact .inl (.inl old)
    · exact .inr ⟨fifo.calls c' (.inl running), fresh⟩
  · exact .inl (.inr woken)

theorem Fifo.finish (fifo : Fifo s xs) (running : s.holder = some c) : Fifo (finish s c) xs := by
  have history := fifo.history
  have capacity := fifo.capacity
  rw [Pipefs.finish]
  cases kind : c.kind with
  | read =>
    rw [inFlight_read running kind] at history capacity
    refine fifo.next fifo.holds ?_ (by simpa [inFlight] using (Nat.le_add_left _ _).trans capacity)
      nofun (fun _ => .inl) fun _ => rfl
    show s.accepted = s.delivered ++ c.buf.take c.count ++ [] ++ xs
    rw [history, append_nil]
  | write =>
    rw [inFlight_nothing running (by simp [kind])] at history capacity
    exact fifo.next fifo.holds history capacity nofun (fun _ => .inl) fun _ => rfl

theorem Call.count_after (sound : c.Sound) (enough : size ≤ c.remaining) (buf : List A) :
    ({ c with buf, remaining := c.remaining - size } : Call A).count = c.count + size := by
  show c.n % 2 ^ 32 - (c.remaining - size) = c.n % 2 ^ 32 - c.remaining + size
  have := sound.1
  omega

section

variable (fifo : Fifo s xs)
include fifo

theorem pipefsRead_fifo (running : s.holder = some c) (kind : c.kind = .read) (small : s.file.head + c.remaining < 2 ^ 32)
    (once : ∀ b, readBatch s.file c.remaining = .ok b -> c.count = 0 ∨ b.size = 0)
    (returns : pipefsRead s c = .ok s') : ∃ ys, Fifo s' ys := by
  obtain ⟨b, batch, rest⟩ := bind_eq_ok.mp returns
  obtain ⟨enough, available, data, holds⟩ := fifo.holds.read small batch
  have sound := fifo.calls c (.inl running)
  have history := fifo.history
  have capacity := fifo.capacity
  have length : (xs.take b.size).length = b.size := by
    rw [length_take]
    omega
  rw [inFlight_read running kind] at history capacity
  let after : Call A := { c with buf := xs.take b.size ++ c.buf.drop b.size, remaining := c.remaining - b.size }
  have count : after.count = c.count + b.size := Call.count_after sound enough _
  -- the only transfer of the call, or none
  have got : after.buf.take after.count = c.buf.take c.count ++ xs.take b.size := by
    rw [count]
    rcases once b batch with first | nothing
    · rw [first, Nat.zero_add, take_zero, nil_append]
      rw [take_append_of_le_length (by omega), take_of_length_le (by omega)]
    · show (xs.take b.size ++ c.buf.drop b.size).take _ = _
      simp [nothing]
  let next : State A := { s with file := { s.file with head := advance s.file.head b }, holder := some after }
  have moved : Fifo next (xs.drop b.size) := by
    have flies : inFlight next = c.buf.take c.count ++ xs.take b.size := got ▸ inFlight_read rfl kind
    refine fifo.next holds ?_ ?_ ?_ (fun _ => .inl) fun unlocked => absurd (fifo.free unlocked) (by simp [running])
    · rw [flies]
      rw [history, append_assoc, append_assoc, append_assoc, take_append_drop]
    · rw [flies, length_append, length, length_drop]
      omega
    · rintro c' ⟨⟩
      refine ⟨(Nat.sub_le _ _).trans sound.1, ?_⟩
      show (xs.take b.size ++ c.buf.drop b.size).length = c.n
      have := sound.1
      rw [length_append, length, length_drop, sound.2]
      omega
  obtain ⟨told, runs⟩ := moved.told b.size
  simp only [data, length] at rest
  split at rest
  · split at rest
    · rename_i same
      cases rest
      refine ⟨_, told.wait runs fun _ => ?_⟩
      show c.n % 2 ^ 32 - (c.remaining - b.size) = 0
      omega
    · cases rest
      exact ⟨_, told.finish runs⟩
  · cases rest
    exact ⟨_, told⟩

theorem write_fifo (running : s.holder = some c) (kind : c.kind = .write) (small : s.file.tail + c.remaining < 2 ^ 32)
    (once : ∀ b, writeBatch s.file c.remaining = .ok b -> (c.count = 0 ∨ b.size = 0) ∧ (b.wrap = true -> s.file.head ≠ 0))
    (returns : write s c = .ok s') : ∃ ys, Fifo s' ys := by
  obtain ⟨b, batch, rest⟩ := bind_eq_ok.mp returns
  obtain ⟨transfer, free⟩ := once b batch
  obtain ⟨enough, room, holds⟩ := fifo.holds.write small batch free
  have sound := fifo.calls c (.inl running)
  have history := fifo.history
  rw [inFlight_nothing running (by simp [kind])] at history
  have length : (c.buf.take b.size).length = b.size := by
    have := sound.1
    rw [length_take, sound.2]
    omega
  -- the first bytes of `buf` are the ones counted off
  have counted : (c.buf.drop c.count).take b.size = c.buf.take b.size := by
    rcases transfer with first | nothing
    · rw [first, drop_zero]
    · rw [nothing, take_zero, take_zero]
  let after : Call A := { c with remaining := c.remaining - b.size }
  let next : State A :=
    { s with
      file :=
        { s.file with
          buffer := store s.file.buffer s.file.tail (c.buf.take b.size)
          tail := advance s.file.tail b }
      accepted := s.accepted ++ c.buf.take b.size
      holder := some after }
  have moved : Fifo next (xs ++ c.buf.take b.size) := by
    have flies : inFlight next = [] := inFlight_nothing rfl (by simp [after, kind])
    refine fifo.next (holds _ length) ?_ ?_ ?_ (fun _ => .inl) fun unlocked => absurd (fifo.free unlocked) (by simp [running])
    · rw [flies]
      show s.accepted ++ c.buf.take b.size = s.delivered ++ [] ++ (xs ++ c.buf.take b.size)
      rw [history, append_assoc]
    · rw [flies, length_append, length]
      simpa using room
    · rintro c' ⟨⟩
      exact ⟨(Nat.sub_le _ _).trans sound.1, sound.2⟩
  obtain ⟨told, runs⟩ := moved.told b.size
  simp only [counted] at rest
  split at rest
  · cases rest
    exact ⟨_, told.wait runs fun read => by simp [kind] at read⟩
  · cases rest
    exact ⟨_, told⟩

theorem Fifo.idle (unlocked : s.locked = false) : s.accepted = s.delivered ++ xs := by
  have history := fifo.history
  rw [inFlight, fifo.free unlocked, append_nil] at history
  exact history

theorem Fifo.hold {woken : List (Call A)} (unlocked : s.locked = false) (sound : c.Sound)
    (fresh : c.kind = .read -> c.count = 0) (fewer : ∀ c' ∈ woken, c' ∈ s.woken) :
    Fifo { s with locked := true, holder := some c, woken } xs := by
  have nothing : inFlight { s with locked := true, holder := some c, woken } = [] := inFlight_nothing rfl fresh
  refine fifo.next fifo.holds ?_ ?_ ?_ (fun c' there => .inl (there.imp_right (fewer c'))) nofun
  · rw [nothing, append_nil]
    exact fifo.idle unlocked
  · rw [nothing, length_nil, Nat.zero_add]
    exact (Nat.le_add_left _ _).trans fifo.capacity
  · rintro c' ⟨⟩
    exact sound

theorem Fifo.fewer {waiting woken : List (Call A)} (first : ∀ c ∈ waiting, c ∈ s.waiting)
    (second : ∀ c ∈ woken, c ∈ s.woken) : Fifo { s with waiting, woken } xs :=
  fifo.next fifo.holds fifo.history fifo.capacity (fun c runs => fifo.calls c (.inl runs))
    (fun c there => .inl (there.imp (first c) (second c))) fifo.free

theorem startCall_fifo {kind : Kind} {buf : List A} (returns : startCall s kind buf = .ok s') : Fifo s' xs := by
  rw [startCall] at returns
  split_ifs at returns with _ locked <;> cases returns
  · exact fifo
  · exact { fifo with free := fun _ => fifo.free (by simpa using locked) }
  · exact fifo.hold (by simpa using locked) ⟨Nat.le_refl _, rfl⟩ (fun _ => Nat.sub_self _) fun _ wakes => wakes

theorem resume_fifo (returns : resume s waiter = .ok s') : Fifo s' xs := by
  rw [resume] at returns
  cases found : s.woken[waiter]? with
  | none =>
    rw [found] at returns
    cases returns
  | some c =>
    have there : c ∈ s.woken := mem_of_getElem? found
    have fewer : ∀ c' ∈ s.woken.eraseIdx waiter, c' ∈ s.woken := fun c' left => mem_of_mem_eraseIdx left
    simp only [found] at returns
    split_ifs at returns with _ _ locked <;> cases returns
    · exact fifo.fewer (fun _ waits => waits) fewer
    · exact fifo.hold (by simpa using locked) (fifo.calls c (.inr (.inr there))) (fifo.blocked c (.inr there)) fewer

theorem signal_fifo (returns : signal s waiter = .ok s') : Fifo s' xs := by
  rw [signal] at returns
  cases found : s.waiting[waiter]? with
  | none =>
    rw [found] at returns
    cases returns
  | some c =>
    simp only [found] at returns
    split_ifs at returns
    cases returns
    exact fifo.fewer (fun c' left => mem_of_mem_eraseIdx left) fun _ wakes => wakes

theorem closeFile_fifo {which : PipeEnd} (returns : closeFile s which = .ok s') : Fifo s' xs := by
  have same : ∀ broken removed, Fifo { s with file := { s.file with broken }, removed } xs := by
    exact fun broken removed => { fifo with holds := { fifo.holds with } }
  rw [closeFile] at returns
  split_ifs at returns
  split at returns
  · cases returns
    exact (same (some which) s.removed).wake
  · split_ifs at returns
    cases returns
    exact same s.file.broken true

theorem round_fifo (safe : Safe s .round) (returns : round s = .ok s') : ∃ ys, Fifo s' ys := by
  rw [round] at returns
  cases running : s.holder with
  | none =>
    rw [running] at returns
    cases returns
  | some c =>
    simp only [running] at returns
    split at returns
    · cases returns
      exact ⟨xs, fifo.finish running⟩
    next done =>
    push Not at done
    have condition := safe c running done.1 done.2
    cases kind : c.kind with
    | read =>
      simp only [kind] at returns condition
      exact pipefsRead_fifo fifo running kind condition.1 condition.2 returns
    | write =>
      simp only [kind] at returns condition
      exact write_fifo fifo running kind condition.1 condition.2 returns

end

def Step (s s' : State A) : Prop := ∃ action, exec s action = .ok s'

def SafeStep (s s' : State A) : Prop := ∃ action, Safe s action ∧ exec s action = .ok s'

theorem exec_fifo (fifo : Fifo s xs) {action : Action A} (safe : Safe s action)
    (returns : exec s action = .ok s') : ∃ ys, Fifo s' ys := by
  cases action with
  | call kind buf => exact ⟨xs, startCall_fifo fifo returns⟩
  | round => exact round_fifo fifo safe returns
  | resume waiter => exact ⟨xs, resume_fifo fifo returns⟩
  | signal waiter => exact ⟨xs, signal_fifo fifo returns⟩
  | close which => exact ⟨xs, closeFile_fifo fifo returns⟩

theorem createFile_fifo {buffer : List A} (size : buffer.length = pipeSize) : Fifo (createFile buffer) [] := by
  refine ⟨⟨size, Nat.zero_le _, Nat.zero_le _, window_nil _ _, .inl ⟨Nat.le_refl _, rfl⟩⟩, rfl,
    Nat.zero_le _, ?_, ?_, fun _ => rfl⟩
  · rintro c (impossible | impossible | impossible) <;> cases impossible
  · rintro c (impossible | impossible) <;> cases impossible

structure Queue (s : State A) : Prop where
  order : s.delivered <+: s.accepted
  capacity : s.accepted.length ≤ s.delivered.length + pipeSize
  kept : s.locked = false -> ∃ xs, s.accepted = s.delivered ++ xs ∧ Window s.file.buffer s.file.head xs

theorem safe_runs_fifo {buffer : List A} (size : buffer.length = pipeSize)
    (run : Relation.ReflTransGen SafeStep (createFile buffer) s) : Queue s := by
  have fifo : ∃ xs, Fifo s xs := by
    refine run.invariant (fun s => ∃ xs, Fifo s xs) ⟨[], createFile_fifo size⟩ ?_
    rintro s s' ⟨xs, fifo⟩ ⟨action, safe, returns⟩
    exact exec_fifo fifo safe returns
  obtain ⟨xs, fifo⟩ := fifo
  have history := fifo.history
  have capacity := fifo.capacity
  rw [append_assoc] at history
  refine ⟨⟨_, history.symm⟩, ?_, fun unlocked => ⟨xs, fifo.idle unlocked, fifo.holds.window⟩⟩
  rw [history, length_append, length_append]
  omega

theorem safe_runs_fifo_transfer :
    ∃ s : State Nat, Relation.ReflTransGen SafeStep (createFile (replicate 1024 0)) s ∧ s.delivered = [1, 2] ∧ Queue s := by
  have run : ReflTransGen SafeStep (createFile (replicate 1024 0)) _ :=
    .tail (.tail (.tail (.tail (.tail (.tail .refl
      ⟨.call .write [1, 2], trivial, rfl⟩) ⟨.round, ?written, rfl⟩) ⟨.round, ?closed, rfl⟩)
      ⟨.call .read [0, 0], trivial, rfl⟩) ⟨.round, ?read, rfl⟩) ⟨.round, ?returned, rfl⟩
  · exact ⟨_, run, rfl, safe_runs_fifo length_replicate run⟩
  · intro c running some _
    cases running
    refine ⟨by decide, fun b result => ?_⟩
    obtain rfl : (⟨2, false, false⟩ : Batch) = b := Except.ok.inj result
    exact ⟨.inl rfl, nofun⟩
  · intro c running some
    cases running
    exact absurd rfl some
  · intro c running some _
    cases running
    exact ⟨by decide, fun b result => .inl rfl⟩
  · intro c running some
    cases running
    exact absurd rfl some

def secondBatch : List (Action Nat) :=
  [.call .write (replicate 1000 0), .round, .round, .call .read (replicate 1000 0), .round, .round,
    .call .write (range 30), .round, .round, .round,
    .call .read (replicate 24 0), .round, .round, .call .read (replicate 6 0), .round, .round, .round]

theorem second_batch_repeats_first :
    ∃ s : State Nat, Relation.ReflTransGen Step (createFile (replicate 1024 0)) s ∧ ¬ s.delivered <+: s.accepted := by
  have evaluated : ((secondBatch.foldlM exec (createFile (replicate 1024 0))).map
      fun s => s.delivered.isPrefixOf s.accepted) = .ok false := by decide +kernel
  obtain ⟨s, result, checked⟩ := Except.map_eq_ok evaluated
  refine ⟨s, Relation.ReflTransGen.of_foldlM (fun _ action _ returns => ⟨action, returns⟩) result, fun order => ?_⟩
  rw [ isPrefixOf_iff_prefix.mpr order] at checked
  cases checked

def File.content (f : File A) : List A :=
  if f.head ≤ f.tail then (f.buffer.drop f.head).take (f.tail - f.head) else f.buffer.drop f.head ++ f.buffer.take f.tail

-- What `pipefs_read` returns for a call that has left its loop.
def Call.returned (c : Call A) : Int :=
  if c.n = c.remaining then -1 else (c.n - c.remaining : Int).bmod (2 ^ 32)

-- On a broken pipe the loop of `pipefs_read` ends in its first round.
def readBroken (s : State A) (buf : List A) : Except Fault (State A × Int) := do
  let s ← startCall s .read buf
  if s.removed then return (s, -1)
  else if buf.length = 0 then return (s, 0)
  else
    match s.holder with
    | none => .error .idle
    | some c => return (← round s, c.returned)

def readsBroken (s : State A) : List (List A) -> Except Fault (State A × List Int)
  | [] => .ok (s, [])
  | buf :: rest => do
    let (s, r) ← readBroken s buf
    let (s, results) ← readsBroken s rest
    return (s, r :: results)

-- What reads of these buffers should return, one after the other.
def counts : List A -> List (List A) -> List Int
  | _, [] => []
  | content, buf :: rest => (min buf.length content.length : Nat) :: counts (content.drop buf.length) rest

/-- A read of no byte keeps the lock, so only the last one may be such a read. -/
def Served (content : List A) : List (List A) -> Prop
  | [] => True
  | buf :: rest => buf.length = 0 ∧ rest = [] ∨ 2 ^ 32 ≤ buf.length ∧ content = [] ∧ Served content rest

theorem round_broken (broken : s.file.broken ≠ none) (running : s.holder = some c) : round s = .ok (finish s c) := by
  simp [round, running, broken]

theorem Call.returned_fresh {c : Call A} (fresh : c.remaining = c.n % 2 ^ 32) :
    c.returned ≤ 0 ∧ (c.returned = 0 ↔ 2 ^ 32 ≤ c.n) := by
  by_cases large : 2 ^ 32 ≤ c.n
  · rw [returned, fresh, if_neg (by omega), Int.bmod, if_pos (by omega)]
    omega
  · rw [returned, if_pos (by omega)]
    omega

theorem readBroken_eq (buf : List A) (broken : s.file.broken ≠ none) (there : s.removed = false) (free : s.locked = false) :
    ∃ t r, readBroken s buf = .ok (t, r) ∧ t.file = s.file ∧ t.removed = false ∧ (t.locked = true ↔ buf.length = 0) ∧
      t.delivered = s.delivered ∧ r ≤ 0 ∧ (r = 0 ↔ buf.length = 0 ∨ 2 ^ 32 ≤ buf.length) := by
  by_cases empty : buf.length = 0
  · refine ⟨{ s with locked := true }, 0, ?_, rfl, there, by simp [empty], rfl, le_rfl, by simp [empty]⟩
    simp [readBroken, startCall, there, free, empty, bind, Except.bind, pure, Except.pure]
  let c : Call A := { kind := .read, n := buf.length, remaining := buf.length % 2 ^ 32, buf }
  have started : startCall s .read buf = .ok { s with locked := true, holder := some c } := by
    simp [startCall, there, free, empty, c]
  refine ⟨finish { s with locked := true, holder := some c } c, c.returned, ?_, rfl, there, by simp [finish, c, empty],
    by simp [finish, c, Call.count], (Call.returned_fresh rfl).1, (Call.returned_fresh rfl).2.trans (or_iff_right empty).symm⟩
  simp [readBroken, started, there, empty, round_broken, broken, bind, Except.bind, pure, Except.pure]

theorem readsBroken_locked {bufs : List (List A)} (there : s.removed = false) (locked : s.locked = true)
    {result : State A × List Int} (returns : readsBroken s bufs = .ok result) : bufs = [] := by
  cases bufs with
  | nil => rfl
  | cons buf rest =>
    have spins : readBroken s buf = .error .spins := by
      simp [readBroken, startCall, there, locked, bind, Except.bind]
    rw [readsBroken, spins] at returns
    cases returns

theorem readsBroken_iff (bufs : List (List A)) (broken : s.file.broken ≠ none)
    (there : s.removed = false) (free : s.locked = false) :
    (∃ v, readsBroken s bufs = .ok (v, counts s.file.content bufs) ∧
      v.delivered = s.delivered ++ s.file.content.take (bufs.map length).sum) ↔ Served s.file.content bufs := by
  induction bufs generalizing s with
  | nil => simp [readsBroken, counts, Served]
  | cons buf rest ih =>
    obtain ⟨t, r, result, file, kept, locked, delivered, low, zero⟩ := readBroken_eq buf broken there free
    have step (v : State A) : readsBroken s (buf :: rest) = .ok (v,
        counts s.file.content (buf :: rest)) ↔ r = (min buf.length s.file.content.length : Nat) ∧
          readsBroken t rest = .ok (v, counts (s.file.content.drop buf.length) rest) := by
      rw [readsBroken, result, counts]
      change (readsBroken t rest >>= fun a => .ok (a.1, r :: a.2)) = _ ↔ _
      cases readsBroken t rest with
      | error e => exact iff_of_false (by rintro ⟨⟩) (by rintro ⟨_, ⟨⟩⟩)
      | ok a =>
        change Except.ok (a.1, r :: a.2) = _ ↔ _
        grind
    simp only [step, Served]
    constructor
    · rintro ⟨v, ⟨same, returns⟩, bytes⟩
      rcases zero.mp (by omega) with none | large
      · exact .inl ⟨none, readsBroken_locked kept (locked.mpr none) returns⟩
      · have empty : s.file.content = [] := by
          rw [← length_eq_zero_iff]
          omega
        have unlocked : t.locked = false := by
          rw [← Bool.not_eq_true, locked]
          omega
        rw [empty] at returns bytes ⊢
        rw [drop_nil] at returns
        have later := ih (file ▸ broken) kept unlocked
        rw [file, empty] at later
        refine .inr ⟨large, rfl, later.mp ⟨v, returns, ?_⟩⟩
        rw [bytes, take_nil, take_nil, delivered]
    · rintro (⟨none, rfl⟩ | ⟨large, empty, served⟩)
      · refine ⟨t, ⟨?_, rfl⟩, by simp [delivered, none]⟩
        rw [zero.mpr (.inl none), none, Nat.zero_min]
        rfl
      · have unlocked : t.locked = false := by
          rw [← Bool.not_eq_true, locked]
          omega
        have later := ih (file ▸ broken) kept unlocked
        rw [file, empty] at later
        rw [empty] at served ⊢
        obtain ⟨v, returns, bytes⟩ := later.mpr served
        refine ⟨v, ⟨by simp [zero.mpr (.inr large)], by rw [drop_nil]; exact returns⟩, ?_⟩
        rw [bytes, take_nil, take_nil, delivered]

/-- Once its write end is closed a pipe gives no byte away, and a read of it, also of a reader it
has woken, returns -1: only a read of no byte, or of `2 ^ 32` and more from an empty pipe, returns 0. -/
theorem end_of_file_iff {s t : State A} (bufs : List (List A)) (opened : s.file.broken = none)
    (closes : closeFile s .input = .ok t) (blocked : ∀ c ∈ s.waiting, c.kind = .read -> c.n = c.remaining) :
    ((∃ v, readsBroken t bufs = .ok (v, counts t.file.content bufs) ∧
        v.delivered = t.delivered ++ t.file.content.take (bufs.map length).sum) ∧
      ∀ c ∈ s.waiting, c.kind = .read -> c ∈ t.woken ∧
        ∀ v : State A, v.file = t.file -> v.holder = some c -> round v = .ok (finish v c) ∧ c.returned = 0) ↔
      Served t.file.content bufs ∧ ∀ c ∈ s.waiting, c.kind ≠ .read := by
  obtain ⟨broken, there, free⟩ : t.file.broken ≠ none ∧ t.removed = false ∧ t.locked = false := by
    simp only [closeFile, opened] at closes
    split_ifs at closes
    cases closes
    simp_all [broadcastWaiters]
  refine and_congr (readsBroken_iff bufs broken there free) ⟨?_, ?_⟩
  · intro woken c member isRead
    obtain ⟨-, zero⟩ := ((woken c member isRead).2 { t with holder := some c } rfl rfl)
    simp [Call.returned, blocked c member isRead] at zero
  · intro none c member isRead
    exact absurd isRead (none c member)

theorem end_of_file_iff_empty :
    ∃ t big v, closeFile (createFile (replicate 1024 0)) .input = .ok t ∧ t.file.content = [] ∧
      2 ^ 32 ≤ big.length ∧ readsBroken t [big, []] = .ok (v, [0, 0]) ∧ v.delivered = [] := by
  have closes : closeFile (createFile (replicate 1024 0)) .input = .ok _ := rfl
  have empty : (createFile (replicate 1024 0)).file.content = [] := rfl
  obtain ⟨big, large⟩ : ∃ big : List Nat, 2 ^ 32 ≤ big.length := ⟨replicate (2 ^ 32) 0, length_replicate.ge⟩
  obtain ⟨⟨v, result, bytes⟩, -⟩ := (end_of_file_iff [big, []] rfl closes (forall_mem_nil _)).mpr
    ⟨.inr ⟨large, empty, .inl ⟨rfl, rfl⟩⟩, forall_mem_nil _⟩
  refine ⟨_, big, v, closes, empty, large, result.trans ?_, bytes.trans ?_⟩
  · change Except.ok (v, counts (createFile (replicate 1024 0)).file.content [big, []]) = _
    rw [empty]
    simp [counts]
  · change [] ++ take _ (createFile (replicate 1024 0)).file.content = _
    rw [empty, take_nil]
    rfl

def unread : State Nat :=
  { createFile (replicate 1024 7) with file := { buffer := replicate 1024 7, head := 0, tail := 1, broken := none } }

theorem unread_byte_lost :
    ((closeFile unread .input).bind fun t => (readBroken t [0]).map fun r =>
      (t.file.content, r.1.delivered, r.2)) = .ok ([7], [], -1) := by
  decide +kernel

end Bincows.Pipefs
