import Bincows.Shared.Execution
import Bincows.Shared.Tables

set_option autoImplicit false

/-! The user stacks of a process: `threads` holds their bases. The pages `others` of its segments and its heap are mapped
before the first stack is placed. -/

namespace Bincows.Sched.ThreadStacks

open List
open Tables (swapRemove swapRemove_perm)

def stackSize : Int := 32 * 1024

def userPrivateEnd : Int := 0x8000000000

inductive Fault where
  | diverges
  | alreadyMapped
  | notMapped
  | noThread
  deriving DecidableEq

structure Process where
  threads : List Int
  mapped : Int -> Bool

def onStack (base page : Int) : Bool := base / 0x1000 ≤ page && page < (base + stackSize) / 0x1000

-- A taken base starts the loop again: `i = -1` before `i++`.
def search (threads : List Int) : Nat -> Int -> Nat -> Except Fault Int
  | 0, _, _ => .error .diverges
  | fuel + 1, base, i =>
    match threads[i]? with
    | none => .ok base
    | some other =>
      if base = other then search threads fuel (base - (stackSize + 0x1000)) 0 else search threads fuel base (i + 1)

def allocStack (p : Process) : Except Fault (Int × Process) := do
  let base ← search p.threads ((p.threads.length + 1) * (p.threads.length + 1)) (userPrivateEnd - stackSize) 0
  if ∃ k : Fin 8, p.mapped (base / 0x1000 + k.val) then .error .alreadyMapped
  else return (base, { p with mapped := fun page => p.mapped page || onStack base page })

def processCreateThread (p : Process) : Except Fault Process := do
  let (base, p) ← allocStack p
  return { p with threads := p.threads ++ [base] }

-- `thread_terminate` and the removal of the thread in `schedule`.
def terminate (p : Process) (i : Nat) : Except Fault Process :=
  match p.threads[i]? with
  | none => .error .noThread
  | some base =>
    if ∃ k : Fin 8, !p.mapped (base / 0x1000 + k.val) then .error .notMapped
    else .ok { threads := swapRemove p.threads i, mapped := fun page => p.mapped page && !onStack base page }

def perform (p : Process) : Option Nat -> Except Fault Process
  | none => processCreateThread p
  | some i => terminate p i

variable (others : Int -> Bool)

def created : Process := { threads := [], mapped := others }

def slot (k : Nat) : Int := userPrivateEnd - stackSize - k * (stackSize + 0x1000)

/-- No other page is in the first slots, as many as the stacks of one more thread may need, or in the guard pages between. -/
def Room (p : Process) : Prop :=
  ∀ page, others page = true -> page < slot p.threads.length / 0x1000 ∨ userPrivateEnd / 0x1000 ≤ page

def FittingStep (p p' : Process) : Prop :=
  ∃ action, (action = none -> Room others p) ∧ perform p action = .ok p'

theorem slot_eq (k : Nat) : slot k = (134217720 - 9 * k) * 4096 := by
  simp only [slot, userPrivateEnd, stackSize]
  omega

theorem slot_succ (k : Nat) : slot k - (stackSize + 0x1000) = slot (k + 1) := by
  simp only [slot_eq, stackSize]
  omega

theorem onStack_slot {k : Nat} {page : Int} :
    onStack (slot k) page = true ↔ 134217720 - 9 * k ≤ page ∧ page < 134217728 - 9 * k := by
  simp only [onStack, slot_eq, stackSize, Bool.and_eq_true, decide_eq_true_eq]
  omega

variable {threads : List Int}

theorem search_finds {m : Nat} (free : slot m ∉ threads) (taken : ∀ k < m, slot k ∈ threads)
    (fuel : Nat) : ∀ k i, k ≤ m -> (∀ b ∈ threads.take i, slot k ≠ b) ->
      (m - k) * (threads.length + 1) + (threads.length - i) < fuel -> search threads fuel (slot k) i = .ok (slot m) := by
  induction fuel with
  | zero =>
    intro k i _ _ enough
    omega
  | succ fuel ih =>
    intro k i low passed enough
    rw [search]
    cases found : threads[i]? with
    | none =>
      rw [take_of_length_le (List.getElem?_eq_none_iff.mp found)] at passed
      rcases Nat.lt_or_eq_of_le low with before | rfl
      · exact absurd rfl (passed _ (taken k before))
      · rfl
    | some other =>
      have member := mem_of_getElem? found
      obtain ⟨inside, value⟩ := List.getElem?_eq_some_iff.mp found
      by_cases same : slot k = other
      · have before : k < m := Nat.lt_of_le_of_ne low fun last => free (last ▸ same ▸ member)
        rw [show m - k = m - (k + 1) + 1 by omega, Nat.add_one_mul] at enough
        simp only [same, if_true]
        rw [← same, slot_succ]
        exact ih (k + 1) 0 before (by simp) (by omega)
      · simp only [same, if_false]
        refine ih k (i + 1) low ?_ (by omega)
        rw [take_add_one, found]
        simpa [or_imp, forall_and] using ⟨passed, same⟩

-- Among one more slots than threads one is free.
theorem exists_free (threads : List Int) : ∃ m ≤ threads.length, slot m ∉ threads ∧ ∀ k < m, slot k ∈ threads := by
  have some : ∃ m, m ≤ threads.length ∧ slot m ∉ threads := by
    by_contra full
    push Not at full
    have inside : (List.range (threads.length + 1)).map slot ⊆ threads := by
      intro b member
      obtain ⟨k, below, rfl⟩ := mem_map.mp member
      exact full k (Nat.le_of_lt_succ (mem_range.mp below))
    have injective : Function.Injective slot := by
      intro j k same
      simp only [slot_eq] at same
      omega
    have fewer := ((nodup_range.map injective).subperm inside).length_le
    simp at fewer
  obtain ⟨low, free⟩ := Nat.find_spec some
  refine ⟨Nat.find some, low, free, fun k below => ?_⟩
  by_contra absent
  exact Nat.find_min some below ⟨by omega, absent⟩

theorem search_eq (threads : List Int) : ∃ m ≤ threads.length, search threads ((threads.length + 1) * (threads.length + 1))
      (userPrivateEnd - stackSize) 0 = .ok (slot m) ∧ slot m ∉ threads ∧ ∀ k < m, slot k ∈ threads := by
  obtain ⟨m, low, free, taken⟩ := exists_free threads
  refine ⟨m, low, ?_, free, taken⟩
  have bound := Nat.mul_le_mul_right (threads.length + 1) low
  rw [show userPrivateEnd - stackSize = slot 0 by decide]
  exact search_finds free taken _ 0 0 (Nat.zero_le m) (by simp) (by rw [Nat.add_one_mul]; simp only [Nat.sub_zero]; omega)

structure Placed (p : Process) : Prop where
  grid : ∀ b ∈ p.threads, ∃ k, b = slot k
  distinct : p.threads.Nodup
  mapped : ∀ page, p.mapped page = true ↔ others page = true ∨ ∃ b ∈ p.threads, onStack b page = true
  above : ∀ b ∈ p.threads, ∀ page, others page = true -> page < b / 0x1000 ∨ userPrivateEnd / 0x1000 ≤ page

variable {p p' : Process} {others}

def Process.place (p : Process) (base : Int) : Process :=
  { threads := p.threads ++ [base], mapped := fun page => p.mapped page || onStack base page }

theorem onStack_apart {k : Nat} {page : Int} (apart : page < slot k / 0x1000 ∨ userPrivateEnd / 0x1000 ≤ page) :
    onStack (slot k) page = false := by
  rw [← Bool.not_eq_true, onStack_slot]
  simp only [slot_eq, userPrivateEnd] at apart
  omega

theorem Placed.allocStack (placed : Placed others p) (room : Room others p) :
    ∃ m, slot m ∉ p.threads ∧ (∀ k < m, slot k ∈ p.threads) ∧
      allocStack p = .ok (slot m, { p.place (slot m) with threads := p.threads }) ∧ Placed others (p.place (slot m)) := by
  obtain ⟨m, low, found, free, taken⟩ := search_eq p.threads
  have clear (page : Int) (other : others page = true) :
      page < slot m / 0x1000 ∨ userPrivateEnd / 0x1000 ≤ page := by
    have outside := room page other
    simp only [slot_eq] at outside ⊢
    omega
  have apart : ¬ ∃ k : Fin 8, p.mapped (slot m / 0x1000 + k.val) = true := by
    rintro ⟨k, old⟩
    rcases (placed.mapped _).mp old with other | ⟨b, member, here⟩
    · have outside := clear _ other
      simp only [slot_eq, userPrivateEnd] at outside
      omega
    · obtain ⟨j, rfl⟩ := placed.grid b member
      rw [onStack_slot, slot_eq] at here
      obtain rfl : j = m := by omega
      exact free member
  refine ⟨m, free, taken, ?_, ?_, ?_, ?_, forall_mem_concat placed.above clear⟩
  · rw [ThreadStacks.allocStack, found]
    exact if_neg apart
  · exact forall_mem_concat placed.grid ⟨m, rfl⟩
  · exact nodup_append_comm.mp (nodup_cons.mpr ⟨free, placed.distinct⟩)
  · simp [Process.place, placed.mapped, or_and_right, exists_or, or_assoc]

theorem Placed.terminate {i : Nat} (placed : Placed others p) (result : terminate p i = .ok p') : Placed others p' := by
  rw [ThreadStacks.terminate] at result
  split at result
  case h_1 => cases result
  case h_2 base found =>
    split at result <;> cases result
    have perm := swapRemove_perm found
    obtain ⟨gone, distinct⟩ := nodup_cons.mp (perm.nodup_iff.mp placed.distinct)
    have old {b : Int} (member : b ∈ base :: swapRemove p.threads i) : b ∈ p.threads := perm.mem_iff.mpr member
    obtain ⟨k, rfl⟩ := placed.grid base (old mem_cons_self)
    refine ⟨fun b member => placed.grid b (old (mem_cons_of_mem _ member)), distinct, fun page =>
      ?_, fun b member => placed.above b (old (mem_cons_of_mem _ member))⟩
    simp only [Bool.and_eq_true, Bool.not_eq_true', ← Bool.not_eq_true, placed.mapped, perm.mem_iff,
      mem_cons, exists_eq_or_imp]
    constructor
    · tauto
    rintro (other | ⟨b, member, here⟩)
    · refine ⟨.inl other, ?_⟩
      rw [onStack_apart (placed.above _ (old mem_cons_self) page other)]
      exact Bool.false_ne_true
    refine ⟨.inr (.inr ⟨b, member, here⟩), fun there => gone ?_⟩
    obtain ⟨j, rfl⟩ := placed.grid b (old (mem_cons_of_mem _ member))
    rw [onStack_slot] at here there
    obtain rfl : j = k := by omega
    exact member

theorem Placed.step (placed : Placed others p) (step : FittingStep others p p') : Placed others p' := by
  obtain ⟨_ | i, room, result⟩ := step
  · obtain ⟨m, -, -, made, placed'⟩ := placed.allocStack (room rfl)
    rw [perform, processCreateThread, made] at result
    cases result
    exact placed'
  · exact placed.terminate result

end Bincows.Sched.ThreadStacks
