import Mathlib.Data.List.TakeWhile
import Bincows.Fs.Paths
import Bincows.Shared.Histories

set_option autoImplicit false

/-! `strtok` keeps its position in one static variable. Any number of threads run `simplify_path`; a step is one call of
`strtok` with the round of the loop behind it. -/

namespace Bincows.Vfs

open Function List

def nul : Char := Char.ofNat 0

abbrev CPath := { s : Str // nul ∉ s }

def stringAt (text : Str) (off : Nat) : Str := (text.drop off).takeWhile (· ≠ nul)

structure Cut where
  text : Str
  saveptr : Option Nat
  token : Option Nat

def strtokR (text : Str) : Nat -> Nat -> Cut
  | 0, _ => { text, saveptr := none, token := none }
  | fuel + 1, ptr =>
    let rest := stringAt text ptr
    if '/' ∉ rest then { text, saveptr := none, token := if rest = [] then none else some ptr }
    else if rest.head? = some '/' then strtokR text fuel (ptr + 1)
    else
      let next := ptr + rest.idxOf '/'
      { text := text.set next nul
        saveptr := if stringAt text (next + 1) = [] then none else some (next + 1)
        token := some ptr }

structure Caller where
  buf : Str
  dst : Str
  begun : Bool
  place : Option Nat
  result : Option Str
  deriving DecidableEq

def Caller.resume (c : Caller) (cut : Cut) : Caller :=
  let c := { c with begun := true, place := cut.saveptr }
  match cut.token with
  | none => { c with result := some (if c.dst = [] then ['/'] else c.dst) }
  | some ptr => { c with dst := addToken c.dst (stringAt cut.text ptr) }

structure Callers (T : Type) where
  static : Option (T × Nat)
  calls : T -> Caller

section threads

variable {T : Type} [DecidableEq T]

def start (src : T -> CPath) : Callers T where
  static := none
  calls t := { buf := (src t).1, dst := [], begun := false, place := some 0, result := none }

def tokenStep (s : Callers T) (t : T) : Callers T :=
  if (s.calls t).result.isSome then s
  else
    match if (s.calls t).begun then s.static else some (t, 0) with
    -- `strtok(NULL)` with a `saveptr` of `NULL` touches nothing.
    | none =>
      let cut : Cut := { text := [], saveptr := none, token := none }
      { s with calls := update s.calls t ((s.calls t).resume cut) }
    | some (owner, ptr) =>
      let buf := (s.calls owner).buf
      let cut := strtokR buf (buf.length + 1) ptr
      let calls := update s.calls owner { s.calls owner with buf := cut.text }
      { static := cut.saveptr.map (owner, ·)
        calls := update calls t ((calls t).resume cut) }

def Undisturbed (s : Callers T) (t : T) : Prop :=
  (s.calls t).begun = true -> s.static = (s.calls t).place.map (t, ·)

instance (s : Callers T) (t : T) : Decidable (Undisturbed s t) :=
  inferInstanceAs (Decidable (_ -> _))

end threads

def simplifyAlone (src : CPath) (n : Nat) : Caller :=
  (Histories.after tokenStep (start fun _ : Unit => src) (replicate n ())).calls ()

def simplifyResult (src : CPath) : Option Str := (simplifyAlone src (src.1.length + 1)).result

section tokenizer

variable {text rest w : Str} {ws : List Str} {ptr fuel : Nat}

theorem tokens_slash (rest : Str) : tokens ('/' :: rest) = tokens rest := by
  simp [tokens, splitOn, splitOnP_cons_eq_if_modifyHead]

theorem not_slash (noSlash : '/' ∉ w) : ∀ c ∈ w, (c == '/') = false := by
  simpa using fun c member => ne_of_mem_of_not_mem member noSlash

theorem tokens_word (some : w ≠ []) (noSlash : '/' ∉ w) : tokens w = [w] := by
  have whole : w.splitOn '/' = [w] := splitOnP_eq_singleton (not_slash noSlash)
  simp [tokens, whole, some]

theorem tokens_first (some : w ≠ []) (noSlash : '/' ∉ w) : tokens (w ++ '/' :: rest) = w :: tokens rest := by
  have first : (w ++ '/' :: rest).splitOn '/' = w :: rest.splitOn '/' :=
    splitOnP_append_cons_of_forall_mem (not_slash noSlash) '/' (by simp) rest
  simp [tokens, first, some]

theorem takeWhile_text (clean : nul ∉ text) : text.takeWhile (· ≠ nul) = text := by
  rw [takeWhile_eq_self_iff]
  simpa using fun c member => ne_of_mem_of_not_mem member clean

theorem stringAt_clean (clean : nul ∉ text.drop ptr) : stringAt text ptr = text.drop ptr :=
  takeWhile_text clean

/-- The tokens that are left from `place` on, in a text that was not cut there. -/
def Todo (text : Str) (place : Option Nat) (ws : List Str) : Prop :=
  match place with
  | none => ws = []
  | some ptr => nul ∉ text.drop ptr ∧ tokens (text.drop ptr) = ws

theorem strtokR_todo (todo : Todo text (some ptr) ws) (enough : (text.drop ptr).length < fuel) :
    (ws = [] ∧ (strtokR text fuel ptr).token = none) ∨
      ∃ p w rest, ws = w :: rest ∧ (strtokR text fuel ptr).token = some p ∧ stringAt (strtokR text fuel ptr).text p = w ∧
        Todo (strtokR text fuel ptr).text (strtokR text fuel ptr).saveptr rest := by
  induction fuel generalizing ptr with
  | zero => simp at enough
  | succ fuel ih =>
    obtain ⟨clean, rfl⟩ := todo
    rw [strtokR, stringAt_clean clean]
    by_cases noSlash : '/' ∉ text.drop ptr
    · simp only [if_pos noSlash]
      by_cases empty : text.drop ptr = []
      · exact .inl ⟨by simp [empty, tokens], if_pos empty⟩
      · exact .inr ⟨ptr, _, [], tokens_word empty noSlash, if_neg empty, stringAt_clean clean, rfl⟩
    simp only [if_neg noSlash]
    by_cases leading : (text.drop ptr).head? = some '/'
    · simp only [if_pos leading]
      have cut : text.drop ptr = '/' :: text.drop (ptr + 1) := by
        rw [← tail_drop, cons_head?_tail leading]
      refine ih ⟨?_, ?_⟩ ?_
      · exact fun member => clean (cut ▸ mem_cons_of_mem _ member)
      · rw [cut, tokens_slash]
      · rw [cut] at enough
        simpa using enough
    · simp only [if_neg leading]
      -- The text from here on is a word, the delimiter that is overwritten, and the rest.
      obtain ⟨w, rest, split, noSlash⟩ := eq_append_cons_of_mem (not_not.mp noSlash)
      have some : w ≠ [] := by
        rintro rfl
        exact leading (by simp [split])
      have position : (text.drop ptr).idxOf '/' = w.length := by
        rw [split, idxOf_append_of_notMem noSlash, idxOf_cons_self, Nat.add_zero]
      have behind : text.drop (ptr + w.length + 1) = rest := by
        rw [Nat.add_assoc, ← drop_drop, split]
        simp
      have clean' : nul ∉ w ∧ nul ∉ rest := by
        rw [split] at clean
        exact ⟨fun member => clean (by simp [member]), fun member => clean (by simp [member])⟩
      rw [position]
      refine .inr ⟨ptr, w, tokens rest, by rw [split, tokens_first some noSlash], rfl, ?_, ?_⟩
      · have text' : (text.set (ptr + w.length) nul).drop ptr = w ++ nul :: rest := by
          rw [← set_drop, split]
          simp
        rw [stringAt, text', takeWhile_append_of_pos]
        · simp
        · simpa using fun c member => ne_of_mem_of_not_mem member clean'.1
      · have kept : (text.set (ptr + w.length) nul).drop (ptr + w.length + 1) = rest := by
          rw [drop_set_of_lt (Nat.lt_succ_self _), behind]
        rw [stringAt, behind, takeWhile_text clean'.2]
        by_cases empty : rest = []
        · simp [empty, Todo, tokens]
        · simp [empty, Todo, kept, clean'.2]

theorem length_joined_filter (names : List Str) (keep : Str -> Bool) :
    (joined (names.filter keep)).length ≤ (joined names).length := by
  induction names with
  | nil => simp
  | cons name names ih =>
    simp only [filter_cons]
    split <;> simp [joined_cons] <;> omega

theorem joined_splitOn (src : Str) : joined (src.splitOn '/') = '/' :: src := by
  cases parts : src.splitOn '/' with
  | nil => exact absurd parts (splitOn_ne_nil _ _)
  | cons first others => rw [joined_intercalate, ← parts, intercalate_splitOn]

theorem length_joined_tokens (src : Str) : (joined (tokens src)).length ≤ src.length + 1 :=
  (length_joined_filter _ _).trans (by simp [joined_splitOn])

theorem length_tokens (src : Str) : (tokens src).length ≤ src.length := by
  have two : ∀ ts : List Str, (∀ t ∈ ts, t ≠ []) -> 2 * ts.length ≤ (joined ts).length := by
    intro ts words
    induction ts with
    | nil => simp
    | cons t ts ih =>
      have some := length_pos_iff.mpr (words t mem_cons_self)
      have rest := ih fun t' member => words t' (mem_cons_of_mem _ member)
      simp only [joined_cons, length_cons, length_append]
      omega
  have words := two (tokens src) fun t member => (mem_tokens member).1
  have := length_joined_tokens src
  omega

theorem nul_not_mem_resolve (src : CPath) : nul ∉ render (resolve src.1) := by
  have folded : ∀ ts stack : List Str, ∀ name ∈ ts.foldl pushName stack, name ∈ stack ∨ name ∈ ts := by
    intro ts
    induction ts with
    | nil => simp
    | cons t ts ih =>
      intro stack name member
      rcases ih _ _ member with earlier | later
      · rw [pushName] at earlier
        split_ifs at earlier
        · exact .inl earlier
        · exact .inl (mem_of_mem_dropLast earlier)
        · simp only [mem_append, mem_singleton] at earlier
          exact earlier.imp id fun same => by simp [same]
      · exact .inr (mem_cons_of_mem _ later)
  have clean : ∀ name ∈ resolve src.1, nul ∉ name := by
    intro name member inside
    have token := (folded _ _ _ member).resolve_left (by simp)
    have whole : nul ∈ joined (src.1.splitOn '/') :=
      mem_flatMap.mpr ⟨name, (mem_filter.mp token).1, mem_cons_of_mem _ inside⟩
    rw [joined_splitOn] at whole
    exact src.2 ((mem_cons.mp whole).resolve_left (by decide))
  rw [render]
  split_ifs
  · decide
  · simp only [joined, mem_flatMap, mem_cons, not_exists, not_and, not_or]
    exact fun name member => ⟨by decide, clean name member⟩

theorem length_foldl_addToken (ts : List Str) (dst : Str) :
    (ts.foldl addToken dst).length ≤ dst.length + (joined ts).length := by
  induction ts generalizing dst with
  | nil => simp
  | cons t ts ih =>
    have one : (addToken dst t).length ≤ dst.length + t.length + 1 := by
      rw [addToken]
      split_ifs
      · omega
      · rw [cutLast]
        split_ifs
        · have := (dropWhile_suffix (l := dst.reverse) (· ≠ '/')).length_le
          simp at this ⊢
          omega
        · omega
      · simp [Nat.add_assoc]
    have all := ih (addToken dst t)
    simp only [foldl_cons, joined_cons, length_cons, length_append]
    omega

theorem length_built {done : List Str} (part : done <+: tokens ('/' :: rest)) :
    (done.foldl addToken []).length ≤ ('/' :: rest).length := by
  obtain ⟨todo, whole⟩ := part
  have built := length_foldl_addToken done []
  have all := length_joined_tokens rest
  rw [← tokens_slash, ← whole, joined_append, length_append] at all
  simp only [length_nil, length_cons] at built ⊢
  omega

end tokenizer

section runs

variable {T : Type} [DecidableEq T] {s : Callers T} {t : T} {c : Caller} {src : CPath}

structure Tracks (src : CPath) (n : Nat) (c : Caller) : Prop where
  fresh : c.begun = false -> c.place = some 0
  walks : c.result = none -> ∃ done todo, tokens src.1 = done ++ todo ∧ done.length = n ∧
    c.dst = done.foldl addToken [] ∧ Todo c.buf c.place todo
  built : ∃ done, done <+: tokens src.1 ∧ c.dst = done.foldl addToken []
  returned : ∀ r, c.result = some r -> r = simplifyPath src.1

theorem Tracks.resume {n : Nat} (tracks : Tracks src n c) (running : c.result = none) :
    Tracks src (n + 1) (match c.place with
      | none => c.resume { text := [], saveptr := none, token := none }
      | some ptr =>
        let cut := strtokR c.buf (c.buf.length + 1) ptr
        { c with buf := cut.text }.resume cut) := by
  obtain ⟨done, todo, split, count, built, left⟩ := tracks.walks running
  have finished (d : Str) (empty : todo = []) (same : d = c.dst) : (if d = [] then ['/'] else d) = simplifyPath src.1 := by
    rw [simplifyPath, split, empty, append_nil, ← built, same]
  cases place : c.place with
  | none =>
    rw [place] at left
    refine ⟨by rintro ⟨⟩, by rintro ⟨⟩, tracks.built, fun r result => ?_⟩
    cases result
    exact finished _ left rfl
  | some ptr =>
    rw [place] at left
    have enough : (c.buf.drop ptr).length < c.buf.length + 1 := by
      rw [length_drop]
      omega
    rcases strtokR_todo left enough with ⟨empty, ended⟩ | ⟨p, w, rest, first, found, word, todo'⟩
    · simp only [Caller.resume, ended]
      refine ⟨by rintro ⟨⟩, by rintro ⟨⟩, tracks.built, fun r result => ?_⟩
      cases result
      exact finished _ empty rfl
    simp only [Caller.resume, found]
    have longer : tokens src.1 = done ++ [w] ++ rest := by simp [split, first]
    have dst : addToken c.dst (stringAt (strtokR c.buf (c.buf.length + 1) ptr).text p) =
        (done ++ [w]).foldl addToken [] := by rw [foldl_concat, ← built, word]
    refine ⟨by rintro ⟨⟩, fun _ => ⟨done ++ [w], rest, longer, by simp [count], dst, todo'⟩, ?_, ?_⟩
    · exact ⟨done ++ [w], longer ▸ prefix_append _ _, dst⟩
    · intro r result
      rw [running] at result
      cases result

@[simp]
theorem resume_place (cut : Cut) : (c.resume cut).place = cut.saveptr := by
  cases token : cut.token <;> simp [Caller.resume, token]

theorem Tracks.idle {n m : Nat} (tracks : Tracks src n c) (ended : c.result.isSome) : Tracks src m c :=
  { tracks with walks := fun running => by simp [running] at ended }

-- A call of `strtok` that goes on where the thread was reads and cuts only its own text.
theorem tokenStep_tracks {src : T -> CPath} {n : T -> Nat}
    (tracks : ∀ u, Tracks (src u) (n u) (s.calls u)) (undisturbed : Undisturbed s t) (u : T) :
    Tracks (src u) (n u + if t = u then 1 else 0) ((tokenStep s t).calls u) := by
  by_cases ended : (s.calls t).result.isSome
  · rw [tokenStep, if_pos ended]
    by_cases same : t = u
    · subst same
      exact (tracks t).idle ended
    · simpa [same] using tracks u
  have running : (s.calls t).result = none := by simpa using ended
  have pointer : (if (s.calls t).begun then s.static else some (t, 0)) = (s.calls t).place.map (t, ·) := by
    cases begun : (s.calls t).begun with
    | true => exact undisturbed begun
    | false => rw [(tracks t).fresh begun]; rfl
  have next := (tracks t).resume running
  rw [tokenStep, if_neg ended, pointer]
  by_cases same : t = u
  · subst same
    cases place : (s.calls t).place <;> simpa [place] using next
  · cases place : (s.calls t).place <;> simpa [same, update_of_ne (Ne.symm same)] using tracks u

theorem run_tracks {src : T -> CPath} {schedule : List T}
    (undisturbed : ∀ front t, front ++ [t] <+: schedule ->
      Undisturbed (Histories.after tokenStep (start src) front) t) (t : T) :
    Tracks (src t) (schedule.count t) ((Histories.after tokenStep (start src) schedule).calls t) := by
  induction schedule using reverseRecOn generalizing t with
  | nil =>
    refine ⟨fun _ => rfl, fun _ => ⟨[], _, rfl, rfl, rfl, (src t).2, rfl⟩, ⟨[], nil_prefix, rfl⟩, nofun⟩
  | append_singleton front u ih =>
    have before := ih fun front' t part => undisturbed front' t (part.trans (prefix_append _ _))
    have step := tokenStep_tracks before (undisturbed front u prefix_rfl) t
    rw [Histories.after_concat, count_append, count_singleton]
    simpa using step

theorem Tracks.ends {n : Nat} (tracks : Tracks src n c) (many : src.1.length < n) : c.result ≠ none := by
  intro running
  obtain ⟨done, todo, split, count, -⟩ := tracks.walks running
  have := length_tokens src.1
  rw [split, length_append] at this
  omega

theorem tokenStep_alone {s : Callers Unit} (own : Undisturbed s ()) : Undisturbed (tokenStep s ()) () := by
  by_cases ended : (s.calls ()).result.isSome
  · rwa [tokenStep, if_pos ended]
  rw [tokenStep, if_neg ended]
  cases pointer : if (s.calls ()).begun then s.static else some ((), 0) with
  | none =>
    split_ifs at pointer
    simp [Undisturbed, pointer]
  | some place => simp [Undisturbed]

theorem alone_tracks (src : CPath) (n : Nat) : Tracks src n (simplifyAlone src n) := by
  have own (front : List Unit) : Undisturbed (Histories.after tokenStep (start fun _ => src) front) () := by
    induction front using reverseRecOn with
    | nil => simp [Undisturbed, Histories.after, start]
    | append_singleton front _ ih =>
      rw [Histories.after_concat]
      exact tokenStep_alone ih
  have tracks := run_tracks (fun front t (_ : front ++ [t] <+: replicate n ()) => own front) ()
  rwa [count_replicate_self] at tracks

theorem simplifyResult_eq (src : CPath) : simplifyResult src = some (simplifyPath src.1) := by
  have tracks := alone_tracks src (src.1.length + 1)
  cases result : (simplifyAlone src (src.1.length + 1)).result with
  | none => exact absurd result (tracks.ends (Nat.lt_succ_self _))
  | some r => rw [simplifyResult, result, tracks.returned r result]

theorem simplify_path_canonical (src : CPath) :
    ∃ again : CPath, simplifyResult src = some again.1 ∧ again.1 = render (resolve src.1) ∧ Valid (resolve src.1) ∧
      simplifyResult again = some again.1 ∧
      (src.1.head? = some '/' -> again.1.length ≤ src.1.length ∧ ∀ n, (simplifyAlone src n).dst.length ≤ src.1.length) := by
  obtain ⟨valid, canonical⟩ := simplifyPath_resolve src.1
  refine ⟨⟨_, nul_not_mem_resolve src⟩, ?_, rfl, valid, ?_, ?_⟩
  · rw [simplifyResult_eq, canonical]
  · rw [simplifyResult_eq, simplifyPath_render valid]
  · intro absolute
    obtain ⟨rest, slash⟩ : ∃ rest, src.1 = '/' :: rest := ⟨_, (cons_head?_tail absolute).symm⟩
    constructor
    · show (render (resolve src.1)).length ≤ _
      rw [← canonical, simplifyPath]
      split_ifs
      · simp [slash]
      · exact slash ▸ length_built (prefix_rfl)
    · intro n
      obtain ⟨done, part, dst⟩ := (alone_tracks src n).built
      rw [dst]
      exact slash ▸ length_built (slash ▸ part)

theorem undisturbed_calls_as_alone (src : T -> CPath) (schedule : List T)
    (undisturbed : ∀ front t, front ++ [t] <+: schedule ->
      Undisturbed (Histories.after tokenStep (start src) front) t) (t : T) :
    (∀ r, ((Histories.after tokenStep (start src) schedule).calls t).result = some r -> simplifyResult (src t) = some r) ∧
      ((src t).1.length < schedule.count t -> ((Histories.after tokenStep (start src) schedule).calls t).result ≠ none) := by
  have tracks := run_tracks undisturbed t
  refine ⟨?_, tracks.ends⟩
  intro r result
  rw [simplifyResult_eq, tracks.returned r result]

def twoPaths : Bool -> CPath
  | false => ⟨"/a/b".toList, by decide⟩
  | true => ⟨"/c".toList, by decide⟩

-- The second call is at its last token when the first begins.
def inTurn : List Bool := [true, false, false, true, false]

theorem undisturbed_calls_in_turn :
    ((Histories.after tokenStep (start twoPaths) inTurn).calls false).result = some "/a/b".toList ∧
      simplifyResult (twoPaths false) = some "/a/b".toList := by
  have result : ((Histories.after tokenStep (start twoPaths) inTurn).calls false).result = some "/a/b".toList := by decide
  have each : ∀ k < 5, ∀ t, inTurn[k]? = some t ->
      Undisturbed (Histories.after tokenStep (start twoPaths) (inTurn.take k)) t := by
    decide
  refine ⟨result, (undisturbed_calls_as_alone twoPaths inTurn ?_ false).1 _ result⟩
  rintro front t ⟨rest, whole⟩
  have here := each front.length (by have := congrArg length whole; simp [inTurn] at this; omega) t (by simp [← whole])
  rwa [← whole, append_assoc, take_left] at here

theorem strtok_shared :
    ((Histories.after tokenStep (start twoPaths) [false, true, false]).calls false).result = some "/a".toList ∧
      simplifyResult (twoPaths false) = some "/a/b".toList := by
  decide

end runs

section chdir

def getAbsolutePath (cwd path : Str) : Str :=
  if path.head? = some '/' then path else cwd ++ '/' :: path

-- `call` is the copied path and whether `vfs_open` finds a directory there.
def scChdir (cwd : Str) (call : Str × Bool) : Str :=
  let path := getAbsolutePath cwd call.1
  if path.length ≤ 4095 ∧ call.2 then simplifyPath path else cwd

theorem resolve_append (dir path : Str) : resolve (dir ++ '/' :: path) = (tokens path).foldl pushName (resolve dir) := by
  rw [resolve, tokens, splitOn_append_cons_self, filter_append, foldl_append]
  rfl

/-- After any calls of `sc_chdir` the working directory is canonical. From it a path is made absolute and resolved component
by component, and nothing that `simplify_path` builds on the way outgrows the buffer of the path's length. -/
theorem chdir_runs (calls : List (Str × Bool)) :
    ∃ names, Valid names ∧ calls.foldl scChdir ['/'] = render names ∧ ∀ path, ∃ rest,
      getAbsolutePath (render names) path = '/' :: rest ∧
        simplifyPath ('/' :: rest) = render ((tokens path).foldl pushName (if path.head? = some '/' then [] else names)) ∧
        ∀ done, done <+: tokens ('/' :: rest) -> (done.foldl addToken []).length ≤ rest.length + 1 := by
  have canonical : ∃ names, Valid names ∧ calls.foldl scChdir ['/'] = render names := by
    refine foldlRecOn (motive := fun cwd => ∃ names, Valid names ∧ cwd = render names) calls scChdir
      ⟨[], by simp [Valid], rfl⟩ fun cwd kept call _ => ?_
    rw [scChdir]
    split_ifs
    · exact simplifyPath_canonical _
    · exact kept
  obtain ⟨names, valid, same⟩ := canonical
  refine ⟨names, valid, same, fun path => ?_⟩
  have absolute : ∃ rest, getAbsolutePath (render names) path = '/' :: rest := by
    rw [getAbsolutePath]
    split_ifs with slash
    · exact ⟨_, (cons_head?_tail slash).symm⟩
    · cases names <;> exact ⟨_, rfl⟩
  obtain ⟨rest, whole⟩ := absolute
  refine ⟨rest, whole, ?_, fun done part => length_built part⟩
  rw [← whole, (simplifyPath_resolve _).2, getAbsolutePath]
  split_ifs
  · rfl
  · rw [resolve_append, resolve_render valid]

end chdir

end Bincows.Vfs
