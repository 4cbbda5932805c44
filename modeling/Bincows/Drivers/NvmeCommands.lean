import Bincows.Drivers.NvmeRings

set_option autoImplicit false

/-! A read waits in the slot of `read_queue` that the global counter gives, with the page of that
index; a write uses the page of the submission tail. The controller completes commands in any order. -/

namespace Bincows.Nvme

open Function List

variable {A D : Type}

inductive Kind where
  | read (target : Nat)
  | write
  deriving DecidableEq

structure Command where
  number : Nat
  cmdId : Nat
  page : Nat
  lba : Nat
  count : Nat
  kind : Kind
  deriving DecidableEq

def makeCmdid (taskId : Nat) (cmdCounter : BitVec 32) : BitVec 32 :=
  BitVec.ofNat 32 taskId ||| cmdCounter.srem 64#32

/-- `cmdid & ~CMD_TASK_ID_MASK`; a negative index is one past every array. -/
def cmdIndex (cmdid : BitVec 32) : Nat := (cmdid &&& ~~~BitVec.ofNat 32 cmdTaskIdMask).toNat

def performCommand (d : Drive A) (lba count : Nat) : Except Fault (Drive A) :=
  if ¬ (lba < d.capacity ∧ (lba + count) % 2 ^ 64 < d.capacity) then .error .range
  else if 0x1000 ≤ 1 <<< d.blockSizeShift then .error .block
  else do
    let queues ← asyncCommand d.queues
    .ok { d with queues }

def blockCount (d : Drive A) (count : Nat) : Nat := min count (0x1000 >>> d.blockSizeShift)

def nvmeAsyncRead (d : Drive A) (made : Nat) (cmdCounter : BitVec 32) (lba buf count : Nat) :
    Except Fault (Drive A × Command) :=
  let c := blockCount d count
  let cmdid := makeCmdid taskIdAsyncRead cmdCounter
  let index := cmdIndex cmdid
  if ioQueueSize ≤ index then .error .index
  else do
    let slot := { targetBuffer := some buf, size := c <<< d.blockSizeShift }
    let d ← performCommand { d with readQueue := update d.readQueue index slot } lba c
    .ok (d, { number := made, cmdId := cmdid.toNat % 2 ^ 16, page := index, lba, count := c, kind := .read buf })

def nvmeSyncWrite (d : Drive A) (made : Nat) (cmdCounter : BitVec 32) (lba : Nat) (buf : List A)
    (count : Nat) : Except Fault (Drive A × Command) :=
  let c := blockCount d count
  let cmdid := makeCmdid taskIdAsyncWrite cmdCounter
  let page := d.queues.sq.tail
  let size := c <<< d.blockSizeShift
  do
    let data := buf.take size ++ (d.pages page).drop size
    let d ← performCommand { d with pages := update d.pages page data } lba c
    .ok (d, { number := made, cmdId := cmdid.toNat % 2 ^ 16, page, lba, count := c, kind := .write })

/-- A drive with the commands that wait for the controller, that are completed and not handled (in this order), and that are
handled, and the data that the controller moved for each. -/
structure Controlled (A : Type) where
  machine : Machine A
  pending : List Command
  answers : List Command
  done : List Command
  moved : Nat -> Option (List A)

def Controlled.inFlight (x : Controlled A) : List Command := x.pending ++ x.answers

structure System (D A : Type) where
  drives : D -> Controlled A
  cmdCounter : BitVec 32
  made : Nat

inductive SystemAction (D A : Type) where
  | read (d : D) (lba buf count : Nat)
  | write (d : D) (lba : Nat) (buf : List A) (count : Nat)
  | move (d : D) (c : Command) (data : List A)
  | complete (d : D) (c : Command) (status : Nat)
  | interrupt (d : D)
  | update (d : D)
  | handle (d : D)

def Controlled.issue (x : Controlled A) (issued : Drive A × Command) : Controlled A :=
  { x with
    machine := { x.machine with drive := issued.1, issued := x.machine.issued + 1 }
    pending := x.pending ++ [issued.2] }

def Controlled.move (x : Controlled A) (c : Command) (data : List A) : Controlled A :=
  let drive := x.machine.drive
  match c.kind with
  | .write => { x with moved := update x.moved c.number (some data) }
  | .read _ =>
    let page := data ++ (drive.pages c.page).drop data.length
    { x with
      machine := { x.machine with drive := { drive with pages := update drive.pages c.page page } }
      moved := update x.moved c.number (some data) }

def Controlled.complete (x : Controlled A) (c : Command) (status : Nat) : Controlled A :=
  { x with
    machine := post x.machine c.cmdId status
    pending := x.pending.erase c
    answers := x.answers ++ [c] }

def Controlled.progress (x : Controlled A) (machine : Machine A) : Controlled A :=
  if machine.handled.length = x.machine.handled.length then { x with machine }
  else { x with machine, answers := x.answers.tail, done := x.done ++ x.answers.head?.toList }

def System.set [DecidableEq D] (s : System D A) (d : D) (x : Controlled A) : System D A :=
  { s with drives := update s.drives d x }

def System.count (s : System D A) : System D A :=
  { s with cmdCounter := s.cmdCounter + 1, made := s.made + 1 }

def run [DecidableEq D] (s : System D A) : SystemAction D A -> Except Fault (System D A)
  | .read d lba buf count => do
    let issued ← nvmeAsyncRead (s.drives d).machine.drive s.made s.cmdCounter lba buf count
    .ok (s.set d ((s.drives d).issue issued)).count
  | .write d lba buf count => do
    let issued ← nvmeSyncWrite (s.drives d).machine.drive s.made s.cmdCounter lba buf count
    .ok (s.set d ((s.drives d).issue issued)).count
  | .move d c data => .ok (s.set d ((s.drives d).move c data))
  | .complete d c status => .ok (s.set d ((s.drives d).complete c status))
  | .interrupt d => do
    let machine ← perform (s.drives d).machine .interrupt
    .ok (s.set d ((s.drives d).progress machine))
  | .update d => do
    let machine ← perform (s.drives d).machine .update
    .ok (s.set d ((s.drives d).progress machine))
  | .handle d => do
    let machine ← perform (s.drives d).machine .handle
    .ok (s.set d ((s.drives d).progress machine))

/-- The driver issues outside of its interrupt handler, when the submission queue is not full; the controller completes a
command once its data is moved. -/
def Possible (s : System D A) : SystemAction D A -> Prop
  | .read d _ _ count => (s.drives d).machine.stage = .idle ∧
    queueFull (s.drives d).machine.drive.queues.sq = false ∧ count ≠ 0
  | .write d _ _ count => (s.drives d).machine.stage = .idle ∧
    queueFull (s.drives d).machine.drive.queues.sq = false ∧ count ≠ 0
  | .move d c data => c ∈ (s.drives d).pending ∧
    data.length = c.count <<< (s.drives d).machine.drive.blockSizeShift
  | .complete d c _ => c ∈ (s.drives d).pending ∧ (s.drives d).moved c.number ≠ none
  | .interrupt d => Allowed (s.drives d).machine .interrupt
  | .update d => Allowed (s.drives d).machine .update
  | .handle d => Allowed (s.drives d).machine .handle

def SystemStep [DecidableEq D] (s s' : System D A) : Prop := ∃ a, Possible s a ∧ run s a = .ok s'

/-- The counter is not negative, no command of the drive is in flight since 64 commands, and for a write the submission tail
is where the counter is. -/
def Spaced (s : System D A) : SystemAction D A -> Prop
  | .read d _ _ _ => s.made < 2 ^ 31 ∧ ∀ c ∈ (s.drives d).inFlight, s.made < c.number + ioQueueSize
  | .write d _ _ _ => s.made < 2 ^ 31 ∧ (∀ c ∈ (s.drives d).inFlight, s.made < c.number + ioQueueSize) ∧
      (s.drives d).machine.drive.queues.sq.tail = s.made % ioQueueSize
  | _ => True

def SpacedStep [DecidableEq D] (s s' : System D A) : Prop :=
  ∃ a, Possible s a ∧ Spaced s a ∧ run s a = .ok s'

def bootSystem (base : D -> Drive A) : System D A :=
  { drives := fun d =>
      { machine := boot 6 { base d with copied := [] }, pending := [], answers := [], done := [], moved := fun _ => none }
    cmdCounter := 0
    made := 0 }

def ownCopy (moved : Nat -> Option (List A)) (c : Command) : Option (Nat × List A) :=
  match c.kind with
  | .read target => some (target, (moved c.number).getD [])
  | .write => none

variable {n : Nat}

theorem makeCmdid_toNat {taskId : Nat} (small : n < 2 ^ 31) :
    (makeCmdid taskId (BitVec.ofNat 32 n)).toNat = (taskId % 2 ^ 32) ||| (n % 64) := by
  have positive : (BitVec.ofNat 32 n).msb = false := by
    rw [BitVec.msb_eq_decide, BitVec.toNat_ofNat, decide_eq_false_iff_not, Nat.mod_eq_of_lt (by omega)]
    omega
  have remainder : (BitVec.ofNat 32 n).srem 64#32 = (BitVec.ofNat 32 n).umod 64#32 := by
    rw [BitVec.srem_eq, positive]
    rfl
  rw [makeCmdid, BitVec.toNat_or, remainder, BitVec.umod_eq, BitVec.toNat_umod, BitVec.toNat_ofNat,
    BitVec.toNat_ofNat, Nat.mod_eq_of_lt (show n < 2 ^ 32 by omega)]
  rfl

theorem read_cmdid (small : n < 2 ^ 31) :
    cmdIndex (makeCmdid taskIdAsyncRead (BitVec.ofNat 32 n)) = n % 64 ∧
      (makeCmdid taskIdAsyncRead (BitVec.ofNat 32 n)).toNat % 2 ^ 16 = taskIdAsyncRead + n % 64 := by
  have table : ∀ r < 64, ((taskIdAsyncRead % 2 ^ 32) ||| r) &&& 0xffff0fff = r ∧
      ((taskIdAsyncRead % 2 ^ 32) ||| r) % 2 ^ 16 = taskIdAsyncRead + r := by decide
  obtain ⟨index, cmdId⟩ := table (n % 64) (Nat.mod_lt _ (by decide))
  constructor
  · rw [cmdIndex, BitVec.toNat_and, makeCmdid_toNat small]
    exact index
  · rw [makeCmdid_toNat small]
    exact cmdId

theorem write_cmdid (small : n < 2 ^ 31) :
    (makeCmdid taskIdAsyncWrite (BitVec.ofNat 32 n)).toNat % 2 ^ 16 = taskIdAsyncWrite + n % 64 := by
  have table : ∀ r < 64, ((taskIdAsyncWrite % 2 ^ 32) ||| r) % 2 ^ 16 = taskIdAsyncWrite + r := by
    decide
  rw [makeCmdid_toNat small]
  exact table (n % 64) (Nat.mod_lt _ (by decide))

theorem read_entry : ∀ r < 64, (taskIdAsyncRead + r) &&& cmdTaskIdMask = taskIdAsyncRead ∧
    (taskIdAsyncRead + r) &&& cmdIndexMask = r := by decide

theorem write_entry : ∀ r < 64, (taskIdAsyncWrite + r) &&& cmdTaskIdMask ≠ taskIdAsyncRead := by
  decide

section exclusive

variable {made : Nat} {x : Controlled A} {c c' : Command}

def Kind.taskId : Kind -> Nat
  | .read _ => taskIdAsyncRead
  | .write => taskIdAsyncWrite

structure Exclusive (made : Nat) (x : Controlled A) : Prop where
  ring : ∃ seen, Consistent 6 x.machine seen
  issued : x.machine.issued = x.machine.posted.length + x.pending.length
  entries : (x.machine.posted.drop x.machine.handled.length).map CompQueueE.cmdId = x.answers.map Command.cmdId
  places : ∀ c ∈ x.inFlight, c.page = c.number % 64 ∧ c.cmdId = c.kind.taskId + c.number % 64
  numbers : ((x.inFlight ++ x.done).map Command.number).Nodup
  earlier : ∀ c ∈ x.inFlight ++ x.done, c.number < made
  fresh : ∀ n, made ≤ n -> x.moved n = none
  pages : (x.inFlight.map Command.page).Nodup
  waiting : ∀ c ∈ x.inFlight, ∀ target, c.kind = .read target ->
    x.machine.drive.readQueue c.page = ⟨some target, c.count <<< x.machine.drive.blockSizeShift⟩ ∧
      c.count <<< x.machine.drive.blockSizeShift ≠ 0
  data : ∀ c ∈ x.inFlight, ∀ target data, c.kind = .read target -> x.moved c.number = some data ->
    (x.machine.drive.pages c.page).take (c.count <<< x.machine.drive.blockSizeShift) = data
  answered : ∀ c ∈ x.answers, x.moved c.number ≠ none
  copies : x.machine.drive.copied = x.done.filterMap (ownCopy x.moved)

def answer (d : Drive A) (c : Command) : Drive A :=
  match c.kind with
  | .write => d
  | .read target =>
    { d with
      copied := d.copied ++ [(target, (d.pages c.page).take (c.count <<< d.blockSizeShift))]
      readQueue := update d.readQueue c.page ⟨none, c.count <<< d.blockSizeShift⟩ }

variable {m m' : Machine A}

theorem handle_cases (returns : perform m .handle = .ok m') :
    (queueEmpty m.drive.queues.cq = true ∧ m' = { m with stage := .idle }) ∨
      ∃ d cq, queueEmpty m.drive.queues.cq = false ∧
        handleEntry m.drive (m.drive.ring m.drive.queues.cq.head) = .ok d ∧ m' = { m with
          drive := { d with queues := { d.queues with cq } }
          handled := m.handled ++ [m.drive.ring m.drive.queues.cq.head] } := by
  obtain ⟨next, handles, returns⟩ := bind_eq_ok.mp returns
  rw [handleQueue] at handles
  split at handles
  case isTrue empty =>
    cases handles
    cases returns
    exact .inl ⟨empty, rfl⟩
  case isFalse more =>
    obtain ⟨d, entry, handles⟩ := bind_eq_ok.mp handles
    obtain ⟨cq, -, handles⟩ := bind_eq_ok.mp handles
    cases handles
    cases returns
    exact .inr ⟨d, cq, Bool.not_eq_true _ ▸ more, entry, rfl⟩

theorem update_cases (returns : perform m .update = .ok m') :
    m' = { m with stage := .handling } ∨ ∃ queues, m' = { m with drive := { m.drive with queues } } := by
  obtain ⟨next, -, returns⟩ := bind_eq_ok.mp returns
  cases next with
  | none =>
    cases returns
    exact .inl rfl
  | some queues =>
    cases returns
    exact .inr ⟨queues, rfl⟩

variable {d : Drive A} {lba count : Nat} {issued : Drive A × Command}

theorem performCommand_ok {d' : Drive A} (returns : performCommand d lba count = .ok d') :
    1 <<< d.blockSizeShift < 0x1000 ∧ ∃ queues, asyncCommand d.queues = .ok queues ∧ d' = { d with queues } := by
  rw [performCommand] at returns
  split at returns
  · cases returns
  split at returns
  · cases returns
  · obtain ⟨queues, issued, returns⟩ := bind_eq_ok.mp returns
    cases returns
    exact ⟨Nat.not_le.mp ‹_›, queues, issued, rfl⟩

theorem blockCount_size (some : count ≠ 0) (small : 1 <<< d.blockSizeShift < 0x1000) :
    blockCount d count <<< d.blockSizeShift ≠ 0 := by
  rw [Nat.one_shiftLeft] at small
  have positive : 0 < 0x1000 >>> d.blockSizeShift := by
    rw [Nat.shiftRight_eq_div_pow]
    exact Nat.div_pos small.le (Nat.two_pow_pos _)
  rw [Nat.shiftLeft_eq, blockCount]
  exact (Nat.mul_pos (by omega) (Nat.two_pow_pos _)).ne'

variable (exclusive : Exclusive made x)
include exclusive

theorem Exclusive.same_number (first : c ∈ x.inFlight ++ x.done)
    (second : c' ∈ x.inFlight ++ x.done) (same : c.number = c'.number) : c = c' :=
  inj_on_of_nodup_map exclusive.numbers first second same

theorem Exclusive.same_page (first : c ∈ x.inFlight) (second : c' ∈ x.inFlight)
    (same : c.page = c'.page) : c = c' := inj_on_of_nodup_map exclusive.pages first second same

theorem Exclusive.later {made' : Nat} (le : made ≤ made') : Exclusive made' x :=
  { exclusive with
    earlier := fun c member => (exclusive.earlier c member).trans_le le
    fresh := fun n ahead => exclusive.fresh n (le.trans ahead) }

theorem Exclusive.move (pending : c ∈ x.pending) {data : List A}
    (size : data.length = c.count <<< x.machine.drive.blockSizeShift) : Exclusive made (x.move c data) := by
  have inFlight : c ∈ x.inFlight := mem_append_left _ pending
  have number := exclusive.earlier c (mem_append_left _ inFlight)
  -- the record of another command is untouched
  have others : ∀ c' ∈ x.inFlight ++ x.done, c' ≠ c -> update x.moved c.number (some data) c'.number = x.moved c'.number := by
    intro c' member different
    refine update_of_ne (fun same => different ?_) _ _
    exact exclusive.same_number member (mem_append_left _ inFlight) same
  have copies : x.machine.drive.copied = x.done.filterMap (ownCopy (update x.moved c.number (some data))) := by
    rw [exclusive.copies]
    refine filterMap_congr fun c' member => ?_
    have different : c' ≠ c := by
      rintro rfl
      have disjoint := nodup_append.mp (map_append ▸ exclusive.numbers)
      exact disjoint.2.2 _ (mem_map_of_mem inFlight) _ (mem_map_of_mem member) rfl
    rw [ownCopy, ownCopy, others c' (mem_append_right _ member) different]
  have fresh : ∀ n, made ≤ n -> update x.moved c.number (some data) n = none := by
    intro n ahead
    rw [update_of_ne (by omega)]
    exact exclusive.fresh n ahead
  have answered : ∀ c' ∈ x.answers, update x.moved c.number (some data) c'.number ≠ none := by
    intro c' member
    by_cases same : c'.number = c.number
    · rw [same, update_self]
      exact Option.some_ne_none _
    · rw [update_of_ne same]
      exact exclusive.answered c' member
  unfold Controlled.move
  cases kind : c.kind with
  | write =>
    refine { exclusive with copies, fresh, answered, data := ?_ }
    intro c' member target bytes read there
    have different : c' ≠ c := by
      rintro rfl
      rw [kind] at read
      cases read
    change update x.moved c.number (some data) c'.number = some bytes at there
    rw [others c' (mem_append_left _ member) different] at there
    exact exclusive.data c' member target bytes read there
  | read own =>
    obtain ⟨seen, consistent⟩ := exclusive.ring
    refine { exclusive with ring := ⟨seen, { consistent with }⟩, copies, fresh, answered, data := ?_ }
    intro c' member target bytes read there
    change update x.moved c.number (some data) c'.number = some bytes at there
    show (update x.machine.drive.pages c.page _ c'.page).take _ = bytes
    by_cases same : c' = c
    · subst same
      rw [update_self] at there ⊢
      cases there
      rw [← size, take_left]
    · rw [others c' (mem_append_left _ member) same] at there
      rw [update_of_ne fun page => same (exclusive.same_page member inFlight page)]
      exact exclusive.data c' member target bytes read there

theorem Exclusive.complete (pending : c ∈ x.pending) (moved : x.moved c.number ≠ none)
    (status : Nat) : Exclusive made (x.complete c status) := by
  have order : (x.complete c status).inFlight.Perm x.inFlight := by
    show (x.pending.erase c ++ (x.answers ++ [c])).Perm (x.pending ++ x.answers)
    rw [← append_assoc]
    refine (perm_append_singleton _ _).trans ?_
    exact ((perm_cons_erase pending).append_right _).symm
  have members : ∀ c' ∈ (x.complete c status).inFlight, c' ∈ x.inFlight :=
    fun c' member => order.mem_iff.mp member
  have all : ((x.complete c status).inFlight ++ x.done).Perm (x.inFlight ++ x.done) :=
    order.append_right _
  obtain ⟨seen, consistent⟩ := exclusive.ring
  have some := length_pos_of_mem pending
  have issued := exclusive.issued
  have allowed : Allowed x.machine (.post c.cmdId status) :=
    show x.machine.posted.length < x.machine.issued by omega
  constructor
  · exact ⟨seen, post_consistent consistent allowed⟩
  · show x.machine.issued = (x.machine.posted ++ [_]).length + (x.pending.erase c).length
    rw [length_append, length_singleton, length_erase_of_mem pending]
    omega
  · show ((x.machine.posted ++ [_]).drop x.machine.handled.length).map CompQueueE.cmdId = (x.answers ++ [c]).map Command.cmdId
    rw [drop_append_of_le_length consistent.order.length_le, map_append, map_append, exclusive.entries]
    rfl
  · exact fun c' member => exclusive.places c' (members c' member)
  · exact ((all.map Command.number).nodup_iff).mpr exclusive.numbers
  · exact fun c' member => exclusive.earlier c' (all.mem_iff.mp member)
  · exact exclusive.fresh
  · exact ((order.map Command.page).nodup_iff).mpr exclusive.pages
  · exact fun c' member => exclusive.waiting c' (members c' member)
  · exact fun c' member => exclusive.data c' (members c' member)
  · exact forall_mem_concat exclusive.answered moved
  · exact exclusive.copies

variable {entry : CompQueueE}

theorem Exclusive.handleEntry (inFlight : c ∈ x.inFlight) (own : entry.cmdId = c.cmdId) :
    Nvme.handleEntry x.machine.drive entry = if entry.status ≠ 0 then .error .status else .ok (answer x.machine.drive c) := by
  obtain ⟨page, cmdId⟩ := exclusive.places c inFlight
  have small : c.number % 64 < 64 := Nat.mod_lt _ (by decide)
  rw [Nvme.handleEntry, own, cmdId]
  split
  · rfl
  cases kind : c.kind with
  | write =>
    rw [Kind.taskId, if_neg (write_entry _ small), answer, kind]
  | read target =>
    obtain ⟨task, index⟩ := read_entry _ small
    obtain ⟨slot, size⟩ := exclusive.waiting c inFlight target kind
    rw [Kind.taskId, if_pos task, index, ← page, copyRead, slot, answer, kind,
      if_neg (by rw [page]; exact Nat.not_le.mpr small)]
    simp only [if_neg size]

theorem Exclusive.next_answer (next : x.machine.posted[x.machine.handled.length]? = some entry) :
    ∃ c rest, x.answers = c :: rest ∧ entry.cmdId = c.cmdId ∧
      (x.machine.posted.drop (x.machine.handled.length + 1)).map CompQueueE.cmdId = rest.map Command.cmdId := by
  obtain ⟨bound, entry⟩ := List.getElem?_eq_some_iff.mp next
  have entries := exclusive.entries
  rw [drop_eq_getElem_cons bound, entry] at entries
  cases answers : x.answers with
  | nil =>
    rw [answers] at entries
    cases entries
  | cons c rest =>
    rw [answers, map_cons, map_cons] at entries
    obtain ⟨first, rest'⟩ := List.cons.inj entries
    exact ⟨c, rest, rfl, first, rest'⟩

theorem Exclusive.first_answer (notEmpty : queueEmpty x.machine.drive.queues.cq = false) :
    ∃ c rest, x.answers = c :: rest ∧ (x.machine.drive.ring x.machine.drive.queues.cq.head).cmdId = c.cmdId ∧
      (x.machine.posted.drop (x.machine.handled.length + 1)).map CompQueueE.cmdId = rest.map Command.cmdId := by
  obtain ⟨seen, consistent⟩ := exclusive.ring
  have left : x.machine.handled.length < seen := by
    refine lt_of_le_of_ne consistent.done fun all => ?_
    rw [(consistent.positions.cq.empty_iff consistent.done (by omega)).mpr all] at notEmpty
    cases notEmpty
  exact exclusive.next_answer (consistent.next left)

theorem Exclusive.handle (handling : x.machine.stage = .handling)
    (returns : perform x.machine .handle = .ok m) : Exclusive made (x.progress m) := by
  obtain ⟨seen, consistent⟩ := exclusive.ring
  have ring : ∃ seen, Consistent 6 m seen := by
    exact step_consistent (by decide) ⟨seen, consistent⟩ ⟨.handle, handling, returns⟩
  rcases handle_cases returns with ⟨-, rfl⟩ | ⟨d, cq, notEmpty, handles, rfl⟩
  · rw [Controlled.progress, if_pos rfl]
    exact { exclusive with ring }
  obtain ⟨c, rest, answers, own, entries⟩ := exclusive.first_answer notEmpty
  have inFlight : c ∈ x.inFlight := mem_append_right _ (answers ▸ mem_cons_self)
  rw [exclusive.handleEntry inFlight own] at handles
  have answered : d = answer x.machine.drive c := by
    split at handles
    · cases handles
    · exact (Except.ok.inj handles).symm
  subst answered
  have grown : ¬ (x.machine.handled ++ [x.machine.drive.ring x.machine.drive.queues.cq.head]).length =
      x.machine.handled.length := by
    rw [length_append, length_singleton]
    omega
  rw [Controlled.progress, if_neg grown, answers]
  have sub : ∀ c' ∈ x.pending ++ rest, c' ∈ x.inFlight := by
    intro c' member
    rw [Controlled.inFlight, answers]
    simp only [mem_append, mem_cons] at member ⊢
    tauto
  have order : (x.pending ++ rest ++ (x.done ++ [c])).Perm (x.inFlight ++ x.done) := by
    rw [Controlled.inFlight, answers, ← append_assoc]
    refine (perm_append_singleton _ _).trans ?_
    simp only [append_assoc, cons_append]
    exact perm_middle.symm
  have all := exclusive.pages
  rw [Controlled.inFlight, answers, (perm_middle.map Command.page).nodup_iff, map_cons, nodup_cons] at all
  have different : ∀ c' ∈ x.pending ++ rest, c'.page ≠ c.page := by
    intro c' member same
    exact all.1 (same ▸ mem_map_of_mem member)
  have shift : (answer x.machine.drive c).blockSizeShift = x.machine.drive.blockSizeShift := by
    unfold answer
    split <;> rfl
  have pages : (answer x.machine.drive c).pages = x.machine.drive.pages := by
    unfold answer
    split <;> rfl
  have slots : ∀ i, i ≠ c.page -> (answer x.machine.drive c).readQueue i = x.machine.drive.readQueue i := by
    intro i other
    unfold answer
    split
    · rfl
    · exact update_of_ne other _ _
  constructor
  · exact ring
  · exact exclusive.issued
  · rw [length_append, length_singleton]
    exact entries
  · exact fun c' member => exclusive.places c' (sub c' member)
  · exact ((order.map Command.number).nodup_iff).mpr exclusive.numbers
  · exact fun c' member => exclusive.earlier c' (order.mem_iff.mp member)
  · exact exclusive.fresh
  · exact all.2
  · intro c' member target read
    rw [slots _ (different c' member), shift]
    exact exclusive.waiting c' (sub c' member) target read
  · intro c' member target data read there
    rw [pages, shift]
    exact exclusive.data c' (sub c' member) target data read there
  · exact fun c' member => exclusive.answered c' (answers ▸ mem_cons_of_mem _ member)
  · rw [filterMap_append, ← exclusive.copies]
    cases kind : c.kind with
    | write => simp [answer, ownCopy, kind]
    | read target =>
      obtain ⟨data, there⟩ := Option.ne_none_iff_exists'.mp (exclusive.answered c (answers ▸ mem_cons_self))
      have moved := exclusive.data c inFlight target data kind there
      simp [answer, ownCopy, kind, there, moved]

theorem Exclusive.update (updating : x.machine.stage = .updating)
    (returns : perform x.machine .update = .ok m) : Exclusive made (x.progress m) := by
  have ring : ∃ seen, Consistent 6 m seen :=
    step_consistent (by decide) exclusive.ring ⟨.update, updating, returns⟩
  rcases update_cases returns with rfl | ⟨queues, rfl⟩
  all_goals
    rw [Controlled.progress, if_pos rfl]
    exact { exclusive with ring }

section issuing

variable (idle : x.machine.stage = .idle) (notFull : queueFull x.machine.drive.queues.sq = false)
    (spaced : ∀ c ∈ x.inFlight, made < c.number + ioQueueSize)
include idle notFull spaced

theorem Exclusive.issue (queues : asyncCommand x.machine.drive.queues = .ok d.queues)
    (ring : d.ring = x.machine.drive.ring)
    (copied : d.copied = x.machine.drive.copied) (shift : d.blockSizeShift = x.machine.drive.blockSizeShift)
    (others : ∀ i, i ≠ made % 64 -> d.readQueue i = x.machine.drive.readQueue i ∧ d.pages i = x.machine.drive.pages i)
    (number : c.number = made) (page : c.page = made % 64) (cmdId : c.cmdId = c.kind.taskId + made % 64)
    (slot : ∀ target, c.kind = .read target ->
      d.readQueue (made % 64) = ⟨some target, c.count <<< d.blockSizeShift⟩ ∧
        c.count <<< d.blockSizeShift ≠ 0) : Exclusive (made + 1) (x.issue (d, c)) := by
  have free : ∀ c' ∈ x.inFlight, c'.page ≠ made % 64 := by
    intro c' member same
    have near := spaced c' member
    have before := exclusive.earlier c' (mem_append_left _ member)
    rw [(exclusive.places c' member).1] at same
    change made < c'.number + 64 at near
    omega
  have members : ∀ c' ∈ (x.issue (d, c)).inFlight, c' ∈ x.inFlight ∨ c' = c := by
    intro c' member
    simp only [Controlled.inFlight, Controlled.issue, mem_append, mem_singleton] at member ⊢
    tauto
  have order : (x.issue (d, c)).inFlight.Perm (c :: x.inFlight) := by
    show (x.pending ++ [c] ++ x.answers).Perm (c :: (x.pending ++ x.answers))
    rw [append_assoc]
    exact perm_middle
  constructor
  · obtain ⟨seen, consistent⟩ := exclusive.ring
    have outstanding := consistent.outstanding
    have room : x.machine.issued + 1 < x.machine.handled.length + x.machine.drive.queues.sq.size := by
      rw [consistent.positions.sq.slots]
      by_contra full
      have all : x.machine.issued + 1 = seen + 2 ^ 6 := by
        rw [consistent.idle idle]
        omega
      rw [consistent.positions.sq.full all] at notFull
      cases notFull
    obtain ⟨m, submitted, consistent⟩ := submit_consistent consistent room
    simp only [perform, queues] at submitted
    cases submitted
    exact ⟨seen, { consistent with stamped := ring ▸ consistent.stamped }⟩
  · show x.machine.issued + 1 = x.machine.posted.length + (x.pending ++ [c]).length
    rw [exclusive.issued, length_append]
    rfl
  · exact exclusive.entries
  · intro c' member
    rcases members c' member with old | rfl
    · exact exclusive.places c' old
    · rw [number]
      exact ⟨page, cmdId⟩
  · have grown : ((x.issue (d, c)).inFlight ++ x.done).Perm (c :: (x.inFlight ++ x.done)) := order.append_right _
    refine ((grown.map Command.number).nodup_iff).mpr (nodup_cons.mpr ⟨?_, exclusive.numbers⟩)
    intro again
    obtain ⟨c', member, same⟩ := mem_map.mp again
    have before := exclusive.earlier c' member
    omega
  · intro c' member
    rcases mem_append.mp member with inFlight | done
    · rcases members c' inFlight with old | rfl
      · exact (exclusive.earlier c' (mem_append_left _ old)).trans (Nat.lt_succ_self _)
      · exact number ▸ Nat.lt_succ_self _
    · exact (exclusive.earlier c' (mem_append_right _ done)).trans (Nat.lt_succ_self _)
  · exact fun n ahead => exclusive.fresh n ((Nat.le_succ _).trans ahead)
  · refine ((order.map Command.page).nodup_iff).mpr (nodup_cons.mpr ⟨?_, exclusive.pages⟩)
    intro again
    obtain ⟨c', member, same⟩ := mem_map.mp again
    exact free c' member (same.trans page)
  · intro c' member target read
    show d.readQueue c'.page = ⟨some target, c'.count <<< d.blockSizeShift⟩ ∧ c'.count <<< d.blockSizeShift ≠ 0
    rcases members c' member with old | rfl
    · rw [(others _ (free c' old)).1, shift]
      exact exclusive.waiting c' old target read
    · rw [page]
      exact slot target read
  · intro c' member target data read there
    show (d.pages c'.page).take (c'.count <<< d.blockSizeShift) = data
    change x.moved c'.number = some data at there
    rcases members c' member with old | rfl
    · rw [(others _ (free c' old)).2, shift]
      exact exclusive.data c' old target data read there
    · rw [number, exclusive.fresh made le_rfl] at there
      cases there
  · exact exclusive.answered
  · exact copied.trans exclusive.copies

theorem Exclusive.read (early : made < 2 ^ 31) {buf : Nat}
    (returns : nvmeAsyncRead x.machine.drive made (BitVec.ofNat 32 made) lba buf count = .ok issued)
      (some : count ≠ 0) : Exclusive (made + 1) (x.issue issued) := by
  obtain ⟨index, cmdId⟩ := read_cmdid early
  simp only [nvmeAsyncRead, index, cmdId] at returns
  split at returns
  · cases returns
  obtain ⟨d, performed, returns⟩ := bind_eq_ok.mp returns
  cases returns
  obtain ⟨small, queues, submitted, rfl⟩ := performCommand_ok performed
  refine exclusive.issue idle notFull spaced submitted rfl rfl rfl ?_ rfl rfl rfl ?_
  · exact fun i other => ⟨update_of_ne other _ _, rfl⟩
  · intro target read
    cases read
    exact ⟨update_self _ _ _, blockCount_size some small⟩

theorem Exclusive.write (early : made < 2 ^ 31) {buf : List A}
    (returns : nvmeSyncWrite x.machine.drive made (BitVec.ofNat 32 made) lba buf count = .ok issued)
    (tail : x.machine.drive.queues.sq.tail = made % ioQueueSize) : Exclusive (made + 1) (x.issue issued) := by
  simp only [nvmeSyncWrite, tail, write_cmdid early] at returns
  obtain ⟨d, performed, returns⟩ := bind_eq_ok.mp returns
  cases returns
  obtain ⟨small, queues, submitted, rfl⟩ := performCommand_ok performed
  refine exclusive.issue idle notFull spaced submitted rfl rfl rfl ?_ rfl rfl rfl ?_
  · exact fun i other => ⟨rfl, update_of_ne other _ _⟩
  · intro target read
    cases read

end issuing

end exclusive

section runs

variable [DecidableEq D] {base : D -> Drive A} {s s' : System D A}

structure AllExclusive (s : System D A) : Prop where
  counter : s.cmdCounter = BitVec.ofNat 32 s.made
  drives : ∀ d, Exclusive s.made (s.drives d)

omit [DecidableEq D] in
theorem bootSystem_exclusive (base : D -> Drive A) : AllExclusive (bootSystem base) where
  counter := rfl
  drives := fun _ =>
    { ring := ⟨0, boot_consistent 6 _⟩
      issued := rfl
      entries := rfl
      places := nofun
      numbers := .nil
      earlier := nofun
      fresh := fun _ _ => rfl
      pages := .nil
      waiting := nofun
      data := nofun
      answered := nofun
      copies := rfl }

variable {x : Controlled A}

theorem AllExclusive.set (all : AllExclusive s) {d : D} (exclusive : Exclusive s.made x) :
    AllExclusive (s.set d x) where
  counter := all.counter
  drives :=
    (forall_update_iff s.drives fun _ => Exclusive s.made).mpr ⟨exclusive, fun e _ => all.drives e⟩

theorem AllExclusive.issue (all : AllExclusive s) {d : D} (exclusive : Exclusive (s.made + 1) x) :
    AllExclusive (s.set d x).count where
  counter := by
    show s.cmdCounter + 1 = BitVec.ofNat 32 (s.made + 1)
    rw [all.counter, BitVec.ofNat_add]
    rfl
  drives := (forall_update_iff s.drives fun _ => Exclusive (s.made + 1)).mpr
    ⟨exclusive, fun e _ => (all.drives e).later (Nat.le_succ _)⟩

theorem step_exclusive (all : AllExclusive s) (step : SpacedStep s s') : AllExclusive s' := by
  obtain ⟨a, possible, spaced, returns⟩ := step
  cases a with
  | read d lba buf count =>
    obtain ⟨idle, notFull, some⟩ := possible
    obtain ⟨early, near⟩ := spaced
    obtain ⟨issued, reads, returns⟩ := bind_eq_ok.mp returns
    cases returns
    rw [all.counter] at reads
    exact all.issue ((all.drives d).read idle notFull near early reads some)
  | write d lba buf count =>
    obtain ⟨idle, notFull, -⟩ := possible
    obtain ⟨early, near, tail⟩ := spaced
    obtain ⟨issued, writes, returns⟩ := bind_eq_ok.mp returns
    cases returns
    rw [all.counter] at writes
    exact all.issue ((all.drives d).write idle notFull near early writes tail)
  | move d c data =>
    cases returns
    exact all.set ((all.drives d).move possible.1 possible.2)
  | complete d c status =>
    cases returns
    exact all.set ((all.drives d).complete possible.1 possible.2 status)
  | interrupt d =>
    cases returns
    have ring := step_consistent (by decide) (all.drives d).ring ⟨.interrupt, possible, rfl⟩
    refine all.set ?_
    rw [Controlled.progress, if_pos rfl]
    exact { all.drives d with ring }
  | update d =>
    obtain ⟨m, updates, returns⟩ := bind_eq_ok.mp returns
    cases returns
    exact all.set ((all.drives d).update possible updates)
  | handle d =>
    obtain ⟨m, handles, returns⟩ := bind_eq_ok.mp returns
    cases returns
    exact all.set ((all.drives d).handle possible handles)

def Command.slot (c : Command) : Nat := c.cmdId &&& cmdIndexMask

def Command.isRead (c : Command) : Bool :=
  match c.kind with
  | .read _ => true
  | .write => false

variable {made : Nat}

theorem Exclusive.slots (exclusive : Exclusive made x) :
    ((x.inFlight.filter Command.isRead).map Command.slot).Nodup := by
  have reads : (x.inFlight.filter Command.isRead).map Command.slot = (x.inFlight.filter Command.isRead).map Command.page := by
    refine map_congr_left fun c member => ?_
    obtain ⟨inFlight, isRead⟩ := mem_filter.mp member
    obtain ⟨page, cmdId⟩ := exclusive.places c inFlight
    cases kind : c.kind with
    | write =>
      rw [Command.isRead, kind] at isRead
      cases isRead
    | read target =>
      rw [Command.slot, cmdId, kind, Kind.taskId, (read_entry _ (Nat.mod_lt _ (by decide))).2, page]
  rw [reads]
  exact exclusive.pages.sublist (filter_sublist.map _)

theorem Exclusive.handle_fault (exclusive : Exclusive made x) {fault : Fault}
    (handling : x.machine.stage = .handling) (stops : perform x.machine .handle = .error fault) : fault = .status := by
  obtain ⟨seen, consistent⟩ := exclusive.ring
  rcases handle_consistent consistent handling with ⟨-, returns, -⟩ | ⟨e, fault', next, handles,
    same⟩ | ⟨m, returns, -⟩
  · rw [returns] at stops
    cases stops
  · rw [same] at stops
    cases stops
    obtain ⟨c, rest, answers, own, -⟩ := exclusive.next_answer next
    have inFlight : c ∈ x.inFlight := mem_append_right _ (answers ▸ mem_cons_self)
    rw [exclusive.handleEntry inFlight own] at handles
    split at handles
    · exact (Except.error.inj handles).symm
    · cases handles
  · rw [returns] at stops
    cases stops

/-- While commands are issued at most 64 apart from those in flight and the submission tail of a
drive that writes is where the counter is, no two commands in flight on a drive share a page or a
slot, and each read gets its own data. -/
theorem spaced_commands_exclusive (steps : Relation.ReflTransGen SpacedStep (bootSystem base) s)
    (d : D) :
    ((s.drives d).inFlight.map Command.page).Nodup ∧ (((s.drives d).inFlight.filter Command.isRead).map Command.slot).Nodup ∧
      (s.drives d).machine.drive.copied = (s.drives d).done.filterMap (ownCopy (s.drives d).moved) ∧
      ∀ fault, (s.drives d).machine.stage = .handling ->
        perform (s.drives d).machine .handle = .error fault -> fault = .status := by
  have all := steps.invariant AllExclusive (bootSystem_exclusive base) fun _ _ all step =>
    step_exclusive all step
  have exclusive := all.drives d
  exact ⟨exclusive.pages, exclusive.slots, exclusive.copies, fun fault handling stops =>
    exclusive.handle_fault handling stops⟩

instance (s : System D A) (a : SystemAction D A) : Decidable (Possible s a) :=
  match a with
  | .read _ _ _ _ => inferInstanceAs (Decidable (_ ∧ _ ∧ _))
  | .write _ _ _ _ => inferInstanceAs (Decidable (_ ∧ _ ∧ _))
  | .move _ _ _ => inferInstanceAs (Decidable (_ ∧ _))
  | .complete d c _ =>
    inferInstanceAs (Decidable (c ∈ (s.drives d).pending ∧ (s.drives d).moved c.number ≠ none))
  | .interrupt d => inferInstanceAs (Decidable (Allowed (s.drives d).machine .interrupt))
  | .update d => inferInstanceAs (Decidable (Allowed (s.drives d).machine .update))
  | .handle d => inferInstanceAs (Decidable (Allowed (s.drives d).machine .handle))

instance (s : System D A) (a : SystemAction D A) : Decidable (Spaced s a) :=
  match a with
  | .read _ _ _ _ => inferInstanceAs (Decidable (_ ∧ _))
  | .write _ _ _ _ => inferInstanceAs (Decidable (_ ∧ _ ∧ _))
  | .move _ _ _ | .complete _ _ _ | .interrupt _ | .update _ | .handle _ => .isTrue trivial

end runs

def sampleBase (_ : Bool) : Drive Nat := { sampleDrive with blockSizeShift := 1 }

def sampleRead (number : Nat) : Command :=
  { number, cmdId := 0x1000 + number % 64, page := number % 64, lba := 3, count := 1, kind := .read 100 }

theorem spaced_commands_exclusive_both :
    ∃ s : System Bool Nat, Relation.ReflTransGen SpacedStep (bootSystem sampleBase) s ∧
      (s.drives false).inFlight.map Command.page = [1] ∧ ((s.drives false).inFlight.map Command.page).Nodup ∧
      (s.drives false).machine.drive.copied = [(100, [1, 2])] ∧
      (s.drives false).machine.drive.copied = (s.drives false).done.filterMap (ownCopy (s.drives false).moved) := by
  have steps : ReflTransGen SpacedStep _ _ :=
    .of_guarded (fun s a => Possible s a ∧ Spaced s a) run .full
    (bootSystem sampleBase) [.read false 3 100 1, .write false 5 [8, 9] 1, .move false (sampleRead 0) [1, 2],
      .complete false (sampleRead 0) 0, .interrupt false, .update false, .update false, .handle false, .handle false]
    (fun _ a _ both returns => ⟨a, both.1, both.2, returns⟩) rfl
  obtain ⟨pages, -, copies, -⟩ := spaced_commands_exclusive steps false
  exact ⟨_, steps, rfl, pages, rfl, copies⟩

def sampleAnswer (c : Command) : List (SystemAction Bool Nat) :=
  [.move false c [1, 2], .complete false c 0, .interrupt false, .update false, .update false,
    .handle false, .handle false]

set_option maxRecDepth 20000 in
theorem commands_share_page :
    (∃ s : System Bool Nat, Relation.ReflTransGen SystemStep (bootSystem sampleBase) s ∧
      (s.drives false).done = [sampleRead 1] ∧ (s.drives false).moved 1 = some [1, 2] ∧
      (s.drives false).machine.drive.copied = [(100, [8, 9])]) ∧
    ∃ s : System Bool Nat, Relation.ReflTransGen SystemStep (bootSystem sampleBase) s ∧
      sampleRead 0 ∈ (s.drives false).inFlight ∧ sampleRead 64 ∈ (s.drives false).inFlight := by
  have sound : ∀ (s : System Bool Nat) a s', Possible s a -> run s a = .ok s' -> SystemStep s s' :=
    fun _ a _ possible returns => ⟨a, possible, returns⟩
  have shared :=
    Relation.ReflTransGen.of_guarded Possible run .full (bootSystem sampleBase) [.read true 3 100 1,
    .read false 3 100 1, .move false (sampleRead 1) [1, 2], .write false 5 [8, 9] 1, .complete false (sampleRead 1) 0,
    .interrupt false, .update false, .update false, .handle false] sound rfl
  have overtaken := Relation.ReflTransGen.of_guarded Possible run .full (bootSystem sampleBase)
    (replicate 63 (.read false 3 100 1) ++ sampleAnswer (sampleRead 1) ++ [.read false 3 100 1] ++
      sampleAnswer (sampleRead 2) ++ [.read false 3 100 1]) sound rfl
  exact ⟨⟨_, shared, rfl, rfl, rfl⟩, _, overtaken, by decide, by decide⟩

end Bincows.Nvme
