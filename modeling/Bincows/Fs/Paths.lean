import Mathlib.Tactic

set_option autoImplicit false

namespace Bincows.Vfs

open List

abbrev Str := List Char

def tokens (src : Str) : List Str := (src.splitOn '/').filter (· ≠ [])

-- `strrchr` and the cut at what it finds.
def cutLast (dst : Str) : Str :=
  if '/' ∈ dst then ((dst.reverse.dropWhile (· ≠ '/')).drop 1).reverse else dst

def addToken (dst sub : Str) : Str :=
  if sub = ['.'] then dst
  else if sub = ['.', '.'] then cutLast dst
  else dst ++ '/' :: sub

def simplifyPath (src : Str) : Str :=
  let dst := (tokens src).foldl addToken []
  if dst = [] then ['/'] else dst

structure ValidName (name : Str) : Prop where
  some : name ≠ []
  noSlash : '/' ∉ name
  notDot : name ≠ ['.']
  notDots : name ≠ ['.', '.']

instance (name : Str) : Decidable (ValidName name) :=
  decidable_of_iff (name ≠ [] ∧ '/' ∉ name ∧ name ≠ ['.'] ∧ name ≠ ['.', '.'])
    ⟨fun h => ⟨h.1, h.2.1, h.2.2.1, h.2.2.2⟩, fun h => ⟨h.some, h.noSlash, h.notDot, h.notDots⟩⟩

def joined (names : List Str) : Str := names.flatMap ('/' :: ·)

def render (names : List Str) : Str := if names = [] then ['/'] else joined names

def Valid (names : List Str) : Prop := ∀ name ∈ names, ValidName name

instance (names : List Str) : Decidable (Valid names) :=
  inferInstanceAs (Decidable (∀ name ∈ names, ValidName name))

theorem Valid.left {front rest : List Str} (valid : Valid (front ++ rest)) : Valid front :=
  fun n member => valid n (mem_append_left _ member)

theorem Valid.shorter {names front : List Str} (valid : Valid names) (within : front <+: names) : Valid front :=
  fun n member => valid n (within.subset member)

-- The components on a stack, where `..` takes one off.
def pushName (stack : List Str) (name : Str) : List Str :=
  if name = ['.'] then stack
  else if name = ['.', '.'] then stack.dropLast
  else stack ++ [name]

def resolve (src : Str) : List Str := (tokens src).foldl pushName []

variable {names names' : List Str} {name : Str}

theorem joined_append (names names' : List Str) : joined (names ++ names') = joined names ++ joined names' := flatMap_append

theorem joined_cons (name : Str) (names : List Str) : joined (name :: names) = '/' :: (name ++ joined names) := rfl

theorem joined_eq_nil : joined names = [] ↔ names = [] := by
  cases names with
  | nil => simp [joined]
  | cons name names => simp [joined_cons]

theorem joined_intercalate (name : Str) (names : List Str) :
    joined (name :: names) = '/' :: ['/'].intercalate (name :: names) := by
  induction names generalizing name with
  | nil => simp [joined, intercalate]
  | cons next names ih => rw [joined_cons, ih next, intercalate_cons_cons, append_assoc]; rfl

theorem not_mem_of_mem_splitOn {s t : Str} (member : t ∈ s.splitOn '/') : '/' ∉ t := by
  induction s generalizing t with
  | nil =>
    rw [splitOn_nil, mem_singleton] at member
    simp [member]
  | cons c s ih =>
    rw [splitOn, splitOnP_cons_eq_if_modifyHead] at member
    change t ∈ if (c == '/') = true then [] :: s.splitOn '/' else (s.splitOn '/').modifyHead (cons c) at member
    split at member
    · rcases mem_cons.mp member with rfl | later
      · simp
      · exact ih later
    rename_i different
    cases split : s.splitOn '/' with
    | nil =>
      rw [split] at member
      cases member
    | cons head rest =>
      rw [split] at member ih
      rcases mem_cons.mp member with rfl | later
      · have := ih mem_cons_self
        simp only [beq_iff_eq] at different
        simp only [mem_cons, not_or]
        exact ⟨Ne.symm different, this⟩
      · exact ih (mem_cons_of_mem _ later)

section canonical

theorem cutLast_joined (names : List Str) (noSlash : '/' ∉ name) : cutLast (joined names ++ '/' :: name) = joined names := by
  have there : '/' ∈ joined names ++ '/' :: name := by simp
  have dropped : ∀ rest : Str, (name.reverse ++ '/' :: rest).dropWhile (· ≠ '/') = '/' :: rest := by
    intro rest
    have others : ∀ c ∈ name.reverse, decide (c ≠ '/') = true := by
      intro c member
      rw [mem_reverse] at member
      exact decide_eq_true fun equal => noSlash (equal ▸ member)
    rw [dropWhile_append_of_pos others]
    simp
  rw [cutLast, if_pos there, reverse_append, reverse_cons, append_assoc, singleton_append, dropped]
  simp

theorem addToken_joined (valid : Valid names) (some : name ≠ []) (noSlash : '/' ∉ name) :
    Valid (pushName names name) ∧ addToken (joined names) name = joined (pushName names name) := by
  rw [addToken, pushName]
  split
  · exact ⟨valid, rfl⟩
  split
  · refine ⟨fun n member => valid n (mem_of_mem_dropLast member), ?_⟩
    rcases eq_nil_or_concat' names with rfl | ⟨front, last, rfl⟩
    · rfl
    · have clean := (valid last (by simp)).noSlash
      rw [joined_append, joined_cons, dropLast_concat]
      simpa [joined] using cutLast_joined front clean
  · rename_i notDot notDots
    refine ⟨?_, by simp [joined]⟩
    exact forall_mem_append.mpr ⟨valid, forall_mem_singleton.mpr ⟨some, noSlash, notDot, notDots⟩⟩

theorem mem_tokens {src t : Str} (member : t ∈ tokens src) : t ≠ [] ∧ '/' ∉ t := by
  obtain ⟨inside, some⟩ := mem_filter.mp member
  exact ⟨by simpa using some, not_mem_of_mem_splitOn inside⟩

theorem foldl_addToken {ts : List Str} (clean : ∀ t ∈ ts, t ≠ [] ∧ '/' ∉ t) (valid : Valid names) :
    Valid (ts.foldl pushName names) ∧ ts.foldl addToken (joined names) = joined (ts.foldl pushName names) := by
  induction ts generalizing names with
  | nil => exact ⟨valid, rfl⟩
  | cons t ts ih =>
    obtain ⟨some, noSlash⟩ := clean t mem_cons_self
    obtain ⟨valid', added⟩ := addToken_joined valid some noSlash
    rw [foldl_cons, foldl_cons, added]
    exact ih (fun t' member => clean t' (mem_cons_of_mem _ member)) valid'

theorem simplifyPath_resolve (src : Str) : Valid (resolve src) ∧ simplifyPath src = render (resolve src) := by
  have empty : Valid [] := by simp [Valid]
  obtain ⟨valid, folded⟩ := foldl_addToken (fun t (member : t ∈ tokens src) => mem_tokens member) empty
  refine ⟨valid, ?_⟩
  change (tokens src).foldl addToken [] = joined (resolve src) at folded
  rw [simplifyPath, folded, render]
  simp only [joined_eq_nil]

theorem simplifyPath_canonical (src : Str) : ∃ names, Valid names ∧ simplifyPath src = render names :=
  ⟨_, simplifyPath_resolve src⟩

theorem tokens_render (valid : Valid names) : tokens (render names) = names := by
  cases names with
  | nil => decide
  | cons name rest =>
    have clean : ∀ l ∈ name :: rest, '/' ∉ l := fun l member => (valid l member).noSlash
    have split : (joined (name :: rest)).splitOn '/' = [] :: name :: rest := by
      rw [joined_intercalate, splitOn, splitOnP_cons_eq_if_modifyHead, if_pos (by simp)]
      exact congrArg _ (splitOn_intercalate '/' clean (by simp))
    rw [tokens, render, if_neg (by simp), split, filter_cons_of_neg (by simp)]
    exact filter_eq_self.mpr fun l member => by simpa using (valid l member).some

theorem resolve_render (valid : Valid names) : resolve (render names) = names := by
  have folded : ∀ (ts names : List Str), Valid ts -> ts.foldl pushName names = names ++ ts := by
    intro ts
    induction ts with
    | nil => simp
    | cons t ts ih =>
      intro names clean
      have this := clean t mem_cons_self
      rw [foldl_cons, pushName, if_neg this.notDot, if_neg this.notDots, ih _ fun t' member =>
        clean t' (mem_cons_of_mem _ member), append_assoc]
      rfl
  rw [resolve, tokens_render valid, folded names [] valid, nil_append]

theorem simplifyPath_render (valid : Valid names) : simplifyPath (render names) = render names := by
  rw [(simplifyPath_resolve _).2, resolve_render valid]

end canonical

def ComponentPrefix (m p : Str) : Prop := m = ['/'] ∨ m = p ∨ m ++ ['/'] <+: p

instance (m p : Str) : Decidable (ComponentPrefix m p) := inferInstanceAs (Decidable (_ ∨ _ ∨ _))

/-- The names of the path that `vfs_open` looks up below the root of the file system at `m`: those behind the
first `/`, or behind the character in front of `parent_path` when that is none. -/
def openNames (m p : Str) : List Str :=
  match p.drop m.length with
  | [] => []
  | c :: rest => if c = '/' then rest.splitOn '/' else (c :: rest).splitOn '/'

theorem splitOn_joined (name : Str) (names : List Str) (valid : Valid (name :: names)) :
    (name ++ joined names).splitOn '/' = name :: names := by
  have whole := joined_intercalate name names
  rw [joined_cons, cons.injEq] at whole
  rw [whole.2]
  exact splitOn_intercalate '/' (fun l member => (valid l member).noSlash) (by simp)

theorem openNames_append (names names' : List Str) (valid : Valid (names ++ names')) :
    openNames (render names) (render (names ++ names')) = names' := by
  cases names with
  | nil =>
    cases names' with
    | nil => rfl
    | cons name rest =>
      have dropped : (render ([] ++ name :: rest)).drop (render []).length = name ++ joined rest := rfl
      have clean := valid name (by simp)
      rw [openNames, dropped]
      cases split : name ++ joined rest with
      | nil => exact absurd (append_eq_nil_iff.mp split).1 clean.some
      | cons c tail =>
        have first : c ≠ '/' := by
          rintro rfl
          cases name with
          | nil => exact clean.some rfl
          | cons c' name =>
            cases split
            exact clean.noSlash (by simp)
        simp only [if_neg first]
        rw [← split]
        exact splitOn_joined name rest valid
  | cons first names =>
    have dropped : (render (first :: names ++ names')).drop (render (first :: names)).length = joined names' := by
      have left : render (first :: names) = joined (first :: names) := if_neg (by simp)
      have whole : render (first :: names ++ names') = joined (first :: names ++ names') := if_neg (by simp)
      rw [left, whole, joined_append, drop_left]
    rw [openNames, dropped]
    cases names' with
    | nil => rfl
    | cons name rest =>
      exact splitOn_joined name rest fun n member => valid n (mem_append_right _ member)

theorem render_injective (valid : Valid names) (valid' : Valid names')
    (same : render names = render names') : names = names' := by
  have first := openNames_append [] names valid
  have second := openNames_append [] names' valid'
  rw [nil_append] at first second
  rw [← first, same, second]

theorem name_unique {n n' x y : Str} (clean : '/' ∉ n) (clean' : '/' ∉ n') (start : y = [] ∨ ∃ y', y = '/' :: y')
    (within : n ++ '/' :: x <+: n' ++ y) : n = n' ∧ ∃ y', y = '/' :: y' ∧ x <+: y' := by
  induction n generalizing n' with
  | nil =>
    cases n' with
    | nil =>
      rcases start with rfl | ⟨y', rfl⟩
      · simp at within
      · exact ⟨rfl, y', rfl, by simpa using within⟩
    | cons c n' =>
      rw [nil_append, cons_append, cons_prefix_cons] at within
      rw [← within.1] at clean'
      exact absurd mem_cons_self clean'
  | cons c n ih =>
    cases n' with
    | nil =>
      rcases start with rfl | ⟨y', rfl⟩
      · simp at within
      · rw [nil_append, cons_append, cons_prefix_cons] at within
        exact absurd (by simp [within.1]) clean
    | cons c' n' =>
      rw [cons_append, cons_append, cons_prefix_cons] at within
      obtain ⟨rfl, rest⟩ := within
      have smaller : '/' ∉ n := fun member => clean (mem_cons_of_mem _ member)
      have smaller' : '/' ∉ n' := fun member => clean' (mem_cons_of_mem _ member)
      obtain ⟨rfl, found⟩ := ih smaller smaller' rest
      exact ⟨rfl, found⟩

theorem joined_start (names : List Str) : joined names = [] ∨ ∃ rest, joined names = '/' :: rest := by
  cases names with
  | nil => exact .inl rfl
  | cons name names => exact .inr ⟨_, rfl⟩

theorem isPrefix_of_joined (valid : Valid names) (valid' : Valid names')
    (within : joined names ++ ['/'] <+: joined names') : names <+: names' := by
  induction names generalizing names' with
  | nil => exact nil_prefix
  | cons name names ih =>
    cases names' with
    | nil => simp [joined] at within
    | cons name' names' =>
      rw [joined_cons, joined_cons, cons_append, cons_prefix_cons, append_assoc] at within
      have clean := (valid name mem_cons_self).noSlash
      have clean' := (valid' name' mem_cons_self).noSlash
      have slash : ∃ x, joined names ++ ['/'] = '/' :: x := by
        rcases joined_start names with empty | ⟨rest, start⟩
        · exact ⟨[], by rw [empty]; rfl⟩
        · exact ⟨rest ++ ['/'], by rw [start]; rfl⟩
      obtain ⟨x, whole⟩ := slash
      have behind := within.2
      rw [whole] at behind
      obtain ⟨rfl, y', rest, inside⟩ := name_unique clean clean' (joined_start names') behind
      rw [cons_prefix_cons]
      refine ⟨rfl, ih (fun n member => valid n (mem_cons_of_mem _ member))
        (fun n member => valid' n (mem_cons_of_mem _ member)) ?_⟩
      rw [whole, rest, cons_prefix_cons]
      exact ⟨rfl, inside⟩

theorem componentPrefix_render (valid : Valid names) (valid' : Valid names') :
    ComponentPrefix (render names) (render names') ↔ names <+: names' := by
  constructor
  · rintro (root | same | below)
    · have empty : names = [] := render_injective valid (fun _ member => by cases member) root
      rw [empty]
      exact nil_prefix
    · rw [render_injective valid valid' same]
    · cases names with
      | nil => exact nil_prefix
      | cons name names =>
        cases names' with
        | nil => simp [render, joined] at below
        | cons name' names' =>
          rw [render, if_neg (by simp), render, if_neg (by simp)] at below
          exact isPrefix_of_joined valid valid' below
  · rintro ⟨rest, rfl⟩
    cases names with
    | nil => exact .inl rfl
    | cons name names =>
      cases rest with
      | nil => exact .inr (.inl (by rw [append_nil]))
      | cons next rest =>
        refine .inr (.inr ?_)
        rw [render, if_neg (by simp), render, if_neg (by simp), joined_append,
          prefix_append_right_inj, joined_cons next, cons_prefix_cons]
        exact ⟨rfl, nil_prefix⟩

end Bincows.Vfs
