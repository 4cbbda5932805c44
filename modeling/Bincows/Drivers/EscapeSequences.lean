import Bincows.Drivers.Terminal
import Bincows.Shared.Histories

set_option autoImplicit false

/-! The parser of `emplace_char` alone. An index goes at most two bytes behind `esc_seq`, where the struct has its padding. -/

namespace Bincows.Terminal.Escapes

open Histories Function

structure Parser where
  esc : Bool
  seq : Bool
  idx : Nat
  escSeq : Nat -> UInt8

inductive Action where
  | none
  | plain (c : UInt8)
  -- `m`, `H`, `K` or an unknown byte, and the bytes that its handler can read
  | sequence (c : UInt8) (params : List UInt8)

def Parser.params (p : Parser) : List UInt8 := (List.range p.idx).map p.escSeq

def Parser.store (p : Parser) (n : UInt8) : Parser :=
  { p with escSeq := update p.escSeq p.idx n, idx := p.idx + 1 }

def emplaceChar (p : Parser) (c : UInt8) : Parser × Action :=
  if p.seq then
    if isDigit c then
      if p.idx > escSize then ({ p with seq := false }, .none) else (p.store (c - 48), .none)
    else if c = 59 then
      if escSize ≤ p.idx + 1 then ({ p.store 0xff with seq := false, idx := 0 }, .none) else (p.store 0xff, .none)
    else ({ p with idx := 0, seq := false }, .sequence c p.params)
  else if p.esc ∧ c = 91 then ({ p with seq := true, esc := false }, .none)
  else ({ p with esc := c = 27 }, if c = 27 then .none else .plain c)

def fresh (escSeq : Nat -> UInt8) : Parser := ⟨false, false, 0, escSeq⟩

def parse (p : Parser) (bytes : List UInt8) : Parser :=
  after (fun p c => (emplaceChar p c).1) p bytes

def actions : Parser -> List UInt8 -> List Action
  | _, [] => []
  | p, c :: rest => (emplaceChar p c).2 :: actions (emplaceChar p c).1 rest

-- Bytes behind the index are not read before they are written.
structure Agree (p q : Parser) : Prop where
  esc : p.esc = q.esc
  seq : p.seq = q.seq
  idx : p.idx = q.idx
  params : ∀ i < p.idx, p.escSeq i = q.escSeq i

variable {p q : Parser}

theorem Agree.store (agree : Agree p q) (n : UInt8) : Agree (p.store n) (q.store n) := by
  refine ⟨agree.esc, agree.seq, congrArg (· + 1) agree.idx, fun i inside => ?_⟩
  rcases Nat.lt_succ_iff_lt_or_eq.mp inside with old | rfl
  · simp [Parser.store, ← agree.idx, old.ne, agree.params i old]
  · simp [Parser.store, agree.idx]

theorem Agree.emplaceChar (agree : Agree p q) (c : UInt8) :
    (emplaceChar p c).2 = (emplaceChar q c).2 ∧ Agree (emplaceChar p c).1 (emplaceChar q c).1 := by
  have same : p.params = q.params := by
    rw [Parser.params, Parser.params, ← agree.idx]
    exact List.map_congr_left fun i inside => agree.params i (List.mem_range.mp inside)
  have stored := agree.store
  obtain ⟨esc, seq, idx, params⟩ := agree
  simp only [Escapes.emplaceChar, ← esc, ← seq, ← idx, same]
  split_ifs
  all_goals
    first
    | exact ⟨rfl, stored _⟩
    | exact ⟨rfl, esc, rfl, rfl, nofun⟩
    | exact ⟨rfl, rfl, rfl, rfl, by simp_all⟩

theorem Agree.actions (agree : Agree p q) (bytes : List UInt8) :
    actions p bytes = actions q bytes := by
  induction bytes generalizing p q with
  | nil => rfl
  | cons c rest ih =>
    obtain ⟨same, next⟩ := agree.emplaceChar c
    rw [Escapes.actions, Escapes.actions, same, ih next]

theorem parse_esc (escSeq : Nat -> UInt8) (bytes : List UInt8) :
    (parse (fresh escSeq) bytes).seq = true -> (parse (fresh escSeq) bytes).esc = false := by
  induction bytes using List.reverseRecOn with
  | nil => exact nofun
  | append_singleton front c apart =>
    rw [parse, after_concat, ← parse, emplaceChar]
    split_ifs with inside
    all_goals
      first
      | exact apart
      | exact fun _ => rfl
      | exact fun within => absurd within inside
      | exact nofun

/-- The byte `c` ends a sequence. What follows is parsed as at the start just when `c` is no digit
behind eleven parameters. -/
theorem sequence_end_resynchronises_iff (escSeq escSeq' : Nat -> UInt8) (bytes : List UInt8)
    (c : UInt8) :
    ((parse (fresh escSeq) bytes).seq = true -> (emplaceChar (parse (fresh escSeq) bytes) c).1.seq = false ->
        ∀ more, actions (emplaceChar (parse (fresh escSeq) bytes) c).1 more = actions (fresh escSeq') more) ↔
      ((parse (fresh escSeq) bytes).seq = true -> isDigit c = true -> (parse (fresh escSeq) bytes).idx ≤ escSize) := by
  have apart := parse_esc escSeq bytes
  generalize parse (fresh escSeq) bytes = p at apart ⊢
  constructor
  · intro resynchronises inside digit
    by_contra long
    have stays : emplaceChar p c = ({ p with seq := false }, .none) := by
      rw [emplaceChar, if_pos inside, if_pos digit, if_pos (Nat.not_le.mp long)]
    rw [stays] at resynchronises
    have same := resynchronises inside rfl [27, 91, 109]
    have zero : p.idx = 0 := by
      simpa [actions, emplaceChar, fresh, Parser.params, isDigit] using congrArg List.getLast? same
    omega
  · intro short inside ended more
    refine Agree.actions ?_ more
    have esc := apart inside
    simp only [emplaceChar, inside, if_true] at ended ⊢
    split_ifs at ended ⊢ with digit long
    · exact absurd (short inside digit) (Nat.not_le.mpr long)
    all_goals
      first
      | exact ⟨esc, rfl, rfl, nofun⟩
      | simp [Parser.store, inside] at ended

-- Twelve digits, then the sequence for red: its two parameters stand behind the eleven digits kept.
theorem long_sequence_spoils_next :
    (actions (fresh fun _ => 0) ((27 :: 91 :: List.replicate 12 48) ++ [27, 91, 51, 49, 109])).getLast? = some (.plain 109) ∧
      (actions (fresh fun _ => 0) [27, 91, 51, 49, 109]).getLast? = some (.sequence 109 [3, 1]) := by
  exact ⟨rfl, rfl⟩

end Bincows.Terminal.Escapes
