import Bincows.Blibc.Threads

set_option autoImplicit false

namespace Bincows.Threads

open Tables Histories List

variable (s : State)

def Point.exited : Point -> Bool
  | .leaving | .exiting | .ended => true
  | _ => false

structure Thread.Wf (t : Thread) : Prop where
  joinable : ∀ info, t.info = some info -> info.joinable = t.joinable
  joined : ∀ info, t.info = some info -> info.joined = false -> t.joinable = true
  retval : t.point.exited = false -> t.retval = none

def Joinable (child : Nat) : Prop := ∃ t, s.threads[child]? = some t ∧ t.joinable = true ∧
  t.info.isSome

def All (property : Thread -> Prop) : Prop := ∀ (i : Nat) (t : Thread), s.threads[i]? = some t ->
  property t

structure Inv : Prop where
  threads : All s Thread.Wf
  waits : ∀ n child, point s n = some (.waiting child) -> Joinable s child

variable {s} {n i : Nat} {p : Point}

variable {j : Nat} {t : Thread}

section modified

variable {property : Thread -> Prop} {f : Thread -> Thread}

theorem getElem?_modify_some {ts : List Thread} {t' : Thread}
    (found : (ts.modify i f)[j]? = some t') :
    ∃ t, ts[j]? = some t ∧ t' = if i = j then f t else t := by
  rw [getElem?_modify, Option.map_eq_map, Option.map_eq_some_iff] at found
  obtain ⟨t, there, value⟩ := found
  exact ⟨t, there, value.symm⟩

theorem getElem?_modify_of {ts : List Thread} (there : ts[j]? = some t) :
    (ts.modify i f)[j]? = some (if i = j then f t else t) := by
  rw [getElem?_modify, there]
  rfl

variable (all : All s property)
include all

theorem All.modify (here : ∀ t, s.threads[i]? = some t -> property t -> property (f t)) :
    All { s with threads := s.threads.modify i f } property := by
  intro j t' found
  obtain ⟨t, there, rfl⟩ := getElem?_modify_some found
  split
  next same =>
    subst same
    exact here t there (all i t there)
  next => exact all j t there

theorem All.setPoint (here : ∀ t, s.threads[n]? = some t -> property t ->
    property { t with point := p }) : All (setPoint s n p) property :=
  all.modify here

theorem All.setInfo {f : ThreadInfo -> ThreadInfo}
    (here : ∀ t, s.threads[n]? = some t -> property t -> property { t with info := t.info.map f }) :
    All (setInfo s n f) property :=
  all.modify here

theorem All.append (new : property t) (live : List Nat) :
    All { s with threads := s.threads ++ [t], live } property := by
  intro j t' found
  rw [getElem?_append] at found
  split at found
  · exact all j t' found
  rw [getElem?_singleton] at found
  split at found
  · cases found
    exact new
  · cases found

end modified

theorem point_some : point s n = some p ↔ ∃ t, s.threads[n]? = some t ∧ t.point = p :=
  Option.map_eq_some_iff

theorem removeThreadInfo_threads (tid : Tid) : (removeThreadInfo s tid).threads = s.threads := by
  unfold removeThreadInfo
  split
  · rfl
  · rfl

theorem wf_setPoint (wf : All s Thread.Wf)
    (retval : p.exited = false -> ∀ t, s.threads[n]? = some t -> t.retval = none) :
    All (setPoint s n p) Thread.Wf :=
  wf.setPoint fun t there here => ⟨here.joinable, here.joined, fun stays => retval stays t there⟩

theorem retval_none {q : Point} (wf : All s Thread.Wf) (stands : point s n = some q)
    (stays : q.exited = false) : ∀ t, s.threads[n]? = some t -> t.retval = none := by
  intro t there
  obtain ⟨t', there', rfl⟩ := point_some.mp stands
  obtain rfl : t = t' := Option.some.inj (there.symm.trans there')
  exact (wf n t there).retval stays

variable {f : Thread -> Thread}

theorem Joinable.modify {child : Nat} (joinable : Joinable s child)
    (keeps : ∀ t, (f t).joinable = t.joinable ∧ (t.info.isSome -> (f t).info.isSome)) :
    Joinable { s with threads := s.threads.modify i f } child := by
  obtain ⟨t, there, isJoinable, info⟩ := joinable
  refine ⟨if i = child then f t else t, getElem?_modify_of there, ?_, ?_⟩
  · split
    · rw [(keeps t).1, isJoinable]
    · exact isJoinable
  · split
    · exact (keeps t).2 info
    · exact info

def Waits (s : State) : Prop := ∀ n child, point s n = some (.waiting child) -> Joinable s child

theorem Waits.modify (waits : Waits s)
    (keeps : ∀ t, (f t).joinable = t.joinable ∧ (t.info.isSome -> (f t).info.isSome))
    (points : ∀ t child, s.threads[i]? = some t -> (f t).point = .waiting child ->
      t.point = .waiting child ∨ Joinable s child) :
    Waits { s with threads := s.threads.modify i f } := by
  intro m child stands
  obtain ⟨t', there', here⟩ := point_some.mp stands
  obtain ⟨t, there, rfl⟩ := getElem?_modify_some there'
  suffices Joinable s child from this.modify keeps
  by_cases same : i = m
  · subst same
    rw [if_pos rfl] at here
    rcases points t child there here with before | joinable
    · exact waits i child (point_some.mpr ⟨t, there, before⟩)
    · exact joinable
  · rw [if_neg same] at here
    exact waits m child (point_some.mpr ⟨t, there, here⟩)

theorem Waits.setPoint (waits : Waits s)
    (joinable : ∀ child, p = .waiting child -> Joinable s child) : Waits (setPoint s n p) :=
  waits.modify (fun _ => ⟨rfl, id⟩) fun _ child _ here => .inr (joinable child here)

theorem Waits.append (waits : Waits s) (new : t.point = .running) (live : List Nat) :
    Waits { s with threads := s.threads ++ [t], live } := by
  intro m child stands
  obtain ⟨t', there, here⟩ := point_some.mp stands
  have before : s.threads[m]? = some t' := by
    rw [getElem?_append] at there
    split at there
    · exact there
    rw [getElem?_singleton] at there
    split at there
    · cases there
      rw [new] at here
      cases here
    · cases there
  obtain ⟨c, inside, joinable⟩ := waits m child (point_some.mpr ⟨t', before, here⟩)
  obtain ⟨bound, -⟩ := List.getElem?_eq_some_iff.mp inside
  exact ⟨c, (getElem?_append_left bound).trans inside, joinable⟩

theorem start_inv : Inv start := by
  constructor
  · intro i t found
    cases i with
    | zero =>
      cases found
      exact .mk (fun _ none => nomatch none) (fun _ none => nomatch none) fun _ => rfl
    | succ i => cases found
  · intro n child stands
    obtain ⟨t, found, here⟩ := point_some.mp stands
    cases n with
    | zero =>
      cases found
      cases here
    | succ n => cases found

variable {s' : State} {v : UInt64} {th : Tid}

theorem infoOf_some {info : ThreadInfo} : infoOf s i = some info ↔ ∃ t, s.threads[i]? = some t ∧
    t.info = some info :=
  Option.bind_eq_some_iff

theorem acquireThreadInfo_some {tid : Tid} (found : acquireThreadInfo s tid = some i) :
    ∃ t info, s.threads[i]? = some t ∧ t.info = some info ∧ info.tid = tid := by
  have holds := find?_some found
  rw [hasTid, Option.any_eq_true_iff_get] at holds
  obtain ⟨some, same⟩ := holds
  obtain ⟨t, there, info⟩ := infoOf_some.mp (Option.some_get some).symm
  exact ⟨t, _, there, info, of_decide_eq_true same⟩

section

variable {child : Nat} {f : ThreadInfo -> ThreadInfo} (inv : Inv s)
include inv

theorem Inv.setPoint (retval : p.exited = false -> ∀ t, s.threads[n]? = some t -> t.retval = none)
    (joinable : ∀ child, p = .waiting child -> Joinable s child) : Inv (setPoint s n p) :=
  ⟨wf_setPoint inv.threads retval, Waits.setPoint inv.waits joinable⟩

theorem Inv.of_threads (same : s'.threads = s.threads) : Inv s' := by
  cases s'
  cases same
  exact ⟨inv.threads, inv.waits⟩

theorem Inv.threadCreate (running : point s n = some .running) (joinable : Bool) :
    Inv (threadCreate s n joinable) := by
  unfold Threads.threadCreate
  by_cases zero : allocTid (tids s) = 0
  · simp only [if_pos zero]
    exact inv
  simp only [if_neg zero]
  have extended := Inv.mk
    (inv.threads.append (t := ⟨allocTid (tids s), joinable, .running, none, none⟩)
      (.mk (fun _ none => nomatch none) (fun _ none => nomatch none) fun _ => rfl) (s.live ++ [s.threads.length]))
    (Waits.append inv.waits rfl _)
  refine extended.setPoint (fun _ t found => ?_) fun _ impossible => nomatch impossible
  obtain ⟨t', there, -⟩ := point_some.mp running
  obtain ⟨bound, -⟩ := List.getElem?_eq_some_iff.mp there
  exact retval_none inv.threads running rfl t ((getElem?_append_left bound).symm.trans found)

theorem Inv.insertThreadInfo (creating : point s n = some (.creating child)) :
    Inv (insertThreadInfo s n child) := by
  have inserted : Inv { s with
      threads := s.threads.modify child fun t => { t with
        info := some { tid := t.tid, ret := 0, done := false, joined := !t.joinable, joinable := t.joinable } }
      table := s.table ++ [child] } := by
    constructor
    · refine inv.threads.modify fun t _ wf => ⟨?_, ?_, wf.retval⟩
      · rintro info ⟨⟩
        rfl
      · rintro info ⟨⟩ joined
        simpa using joined
    · exact Waits.modify inv.waits (fun _ => ⟨rfl, fun _ => rfl⟩) fun _ _ _ here => .inl here
  refine inserted.setPoint (fun _ t found => ?_) fun _ impossible => nomatch impossible
  obtain ⟨t', there, rfl⟩ := getElem?_modify_some found
  have none := retval_none inv.threads creating rfl t' there
  split
  · exact none
  · exact none

theorem Inv.leave (exited : p.exited = true) : Inv (leave s n v p) := by
  constructor
  · refine inv.threads.modify fun t _ wf => ⟨wf.joinable, wf.joined, fun stays => ?_⟩
    exact absurd (exited.symm.trans stays) (by decide)
  · refine Waits.modify inv.waits (fun _ => ⟨rfl, id⟩) fun _ child _ here => ?_
    subst here
    cases exited

theorem Inv.setInfo (joinable : ∀ info, (f info).joinable = info.joinable)
    (joined : ∀ info, (f info).joined = false -> info.joined = false) : Inv (setInfo s i f) := by
  constructor
  · refine inv.threads.setInfo fun t _ wf => ⟨?_, ?_, wf.retval⟩
    · intro info found
      obtain ⟨before, there, rfl⟩ := Option.map_eq_some_iff.mp found
      rw [joinable, wf.joinable before there]
    · intro info found isJoined
      obtain ⟨before, there, rfl⟩ := Option.map_eq_some_iff.mp found
      exact wf.joined before there (joined before isJoined)
  · exact Waits.modify inv.waits (fun _ => ⟨rfl, fun some => by simpa using some⟩) fun _ _ _ here => .inl here

theorem Inv.pthreadExit : Inv (pthreadExit s n t v) := by
  unfold Threads.pthreadExit
  split
  · exact inv.leave rfl
  · split
    · exact Inv.leave (inv.setInfo (fun _ => rfl) fun _ => id) rfl
    · exact inv.leave rfl

theorem Inv.checkDone (joinable : Joinable s child)
    (retval : ∀ t, s.threads[n]? = some t -> t.retval = none) : Inv (checkDone s n child) := by
  unfold Threads.checkDone
  split
  · refine inv.setPoint (fun _ => retval) fun c same => ?_
    split at same
    · cases same
    · cases same
      exact joinable
  · exact inv

theorem Inv.pthreadJoin (running : point s n = some .running) : Inv (pthreadJoin s n th) := by
  unfold Threads.pthreadJoin
  split
  · exact inv
  next i found =>
    split
    · exact inv
    next notJoined =>
      obtain ⟨t, info, there, value, -⟩ := acquireThreadInfo_some found
      have free : info.joined = false := by
        rw [infoOf_some.mpr ⟨t, there, value⟩] at notJoined
        simpa using notJoined
      have joinable : Joinable s i := ⟨t, there, (inv.threads i t there).joined info value free, by rw [value]; rfl⟩
      refine Inv.checkDone (inv.setInfo (fun _ => rfl) fun _ never => nomatch never) ?_ ?_
      · exact joinable.modify fun _ => ⟨rfl, fun some => by simpa using some⟩
      intro t' found
      obtain ⟨t, there, rfl⟩ := getElem?_modify_some found
      have none := retval_none inv.threads running rfl t there
      split
      · exact none
      · exact none

theorem Inv.terminate : Inv (terminate s n) := by
  unfold Threads.terminate
  split
  · exact inv
  · exact Inv.setPoint (inv.of_threads rfl) (fun stays => nomatch stays) fun _ impossible => nomatch impossible

theorem Inv.proceed (there : s.threads[n]? = some t) : Inv (perform s (.proceed n)) := by
  have here : point s n = some t.point := point_some.mpr ⟨t, there, rfl⟩
  simp only [perform, there]
  split
  next child waiting =>
    rw [waiting] at here
    exact inv.checkDone (inv.waits n child here) (retval_none inv.threads here rfl)
  next tid joined =>
    rw [joined] at here
    have removed := inv.of_threads (removeThreadInfo_threads tid)
    refine removed.setPoint (fun _ => ?_) fun _ impossible => nomatch impossible
    rw [removeThreadInfo_threads]
    exact retval_none inv.threads here rfl
  next =>
    have removed := inv.of_threads (removeThreadInfo_threads t.tid)
    exact removed.setPoint (fun stays => nomatch stays) fun _ impossible => nomatch impossible
  next => exact inv.terminate
  next => exact inv

theorem Inv.perform (action : Action) : Inv (perform s action) := by
  cases action with
  | create n joinable =>
    show Inv (if point s n = some .running then _ else s)
    split
    next running => exact inv.threadCreate running joinable
    next => exact inv
  | insert n =>
    simp only [Threads.perform]
    split
    next child creating => exact inv.insertThreadInfo creating
    next => exact inv
  | exit n v =>
    simp only [Threads.perform]
    split
    next =>
      split
      · exact inv.pthreadExit
      · exact inv
    next => exact inv
  | join n th =>
    show Inv (if point s n = some .running then _ else s)
    split
    next running => exact inv.pthreadJoin running
    next => exact inv
  | proceed n =>
    cases found : s.threads[n]? with
    | some t => exact inv.proceed found
    | none =>
      simp only [Threads.perform, found]
      exact inv

-- A join waits only for a joinable child, so the second part of `Recorded` is a case of the first.
theorem recorded_iff : Recorded s ↔ All s Thread.Marked := by
  constructor
  · exact fun recorded => recorded.marked
  intro marked
  refine ⟨marked, ?_⟩
  intro n child t v waiting there value
  obtain ⟨t', there', joinable, some⟩ := inv.waits n child waiting
  obtain rfl : t = t' := Option.some.inj (there.symm.trans there')
  obtain ⟨info, found⟩ := Option.isSome_iff_exists.mp some
  exact ⟨info, found, marked child t there joinable v info value found⟩

end

theorem marked_setPoint (marked : All s Thread.Marked) : All (setPoint s n p) Thread.Marked :=
  marked.setPoint fun _ _ here => here

variable {property : Thread -> Prop}

theorem All.at (all : All { s with threads := s.threads.modify i f } property)
    (there : s.threads[j]? = some t) : property (if i = j then f t else t) :=
  all j _ (getElem?_modify_of there)

theorem All.modify_iff (all : All s property) :
    All { s with threads := s.threads.modify i f } property ↔ ∀ t, s.threads[i]? = some t -> property (f t) := by
  constructor
  · intro after t there
    have here := after.at there
    rwa [if_pos rfl] at here
  · intro here
    exact all.modify fun t there _ => here t there

theorem All.modify_both_iff {g : Thread -> Thread} (all : All s property) (apart : i ≠ j) :
    All { s with threads := (s.threads.modify i f).modify j g } property ↔
      (∀ t, s.threads[i]? = some t -> property (f t)) ∧ ∀ t, s.threads[j]? = some t -> property (g t) := by
  constructor
  · intro after
    constructor
    · intro t there
      have here := after i _ (getElem?_modify_of (getElem?_modify_of there))
      rwa [if_neg (Ne.symm apart), if_pos rfl] at here
    · intro t there
      have here := after j _ (getElem?_modify_of (getElem?_modify_of there))
      rwa [if_pos rfl, if_neg apart] at here
  · rintro ⟨first, second⟩
    refine (all.modify fun t there _ => first t there).modify fun t there _ => ?_
    obtain ⟨t, before, rfl⟩ := getElem?_modify_some there
    rw [if_neg apart]
    exact second t before

section

variable (marked : All s Thread.Marked)
include marked

theorem marked_of_threads (same : s'.threads = s.threads) : All s' Thread.Marked :=
  fun i t found => marked i t (same ▸ found)

theorem marked_checkDone {child : Nat} : All (checkDone s n child) Thread.Marked := by
  unfold checkDone
  split
  · exact marked_setPoint marked
  · exact marked

theorem marked_pthreadJoin : All (pthreadJoin s n th) Thread.Marked := by
  unfold pthreadJoin
  split
  · exact marked
  split
  · exact marked
  · refine marked_checkDone (marked.setInfo fun t _ here => ?_)
    intro joinable v info value found
    obtain ⟨before, there, rfl⟩ := Option.map_eq_some_iff.mp found
    exact here joinable v before value there

theorem marked_threadCreate {joinable : Bool} : All (threadCreate s n joinable) Thread.Marked := by
  unfold threadCreate
  by_cases zero : allocTid (tids s) = 0
  · simp only [if_pos zero]
    exact marked
  · simp only [if_neg zero]
    exact marked_setPoint (marked.append (fun _ _ _ none => by cases none) _)

theorem marked_proceed : All (perform s (.proceed n)) Thread.Marked := by
  simp only [perform]
  split
  · split
    · exact marked_checkDone marked
    · exact marked_setPoint (marked_of_threads marked (removeThreadInfo_threads _))
    · exact marked_setPoint (marked_of_threads marked (removeThreadInfo_threads _))
    · unfold terminate
      split
      · exact marked
      · exact marked_setPoint (marked_of_threads marked rfl)
    · exact marked
  · exact marked

theorem marked_insertThreadInfo {child : Nat} :
    All (insertThreadInfo s n child) Thread.Marked ↔
      ∀ t, s.threads[child]? = some t -> t.joinable = true -> t.retval = none := by
  have unset (s' : State) (after : All (setPoint s' n .running) Thread.Marked) : All s' Thread.Marked := by
    intro i t there
    have here := after.at there
    split at here
    · exact here
    · exact here
  rw [insertThreadInfo, iff_def.mpr ⟨unset _, marked_setPoint⟩]
  -- The new record is not done.
  refine (marked.modify_iff (s := { s with table := _ })).trans ?_
  simp [Thread.Marked, Option.eq_none_iff_forall_ne_some]

end

theorem marked_pthreadExit (inv : Inv s) (marked : All s Thread.Marked)
    (there : s.threads[n]? = some t) : All (pthreadExit s n t v) Thread.Marked ↔
      (∀ info, t.joinable = true -> t.info = some info ->
        acquireThreadInfo s t.tid = some n ∨ info.done = true ∧ info.ret = v) ∧
      ∀ i other w, acquireThreadInfo s t.tid = some i -> i ≠ n -> s.threads[i]? = some other ->
        other.joinable = true -> other.retval = some w -> w = v := by
  have own (q : Point) : (∀ t', s.threads[n]? = some t' -> Thread.Marked { t' with retval := some v, point := q }) ↔
      ∀ info, t.joinable = true -> t.info = some info -> info.done = true ∧ info.ret = v := by
    simp only [there, Option.some.injEq, forall_eq', Thread.Marked]
    exact ⟨fun after info joinable => after joinable v info rfl, fun done joinable _ info same => same ▸ done info joinable⟩
  -- Where no record is written, only the thread's own state changes.
  have unwritten (q : Point) : All (leave s n v q) Thread.Marked ↔ _ :=
    marked.modify_iff.trans (own q)
  unfold pthreadExit
  cases found : acquireThreadInfo s t.tid with
  | none =>
    rw [unwritten]
    simp
  | some i =>
    obtain ⟨other, record, inside, value, -⟩ := acquireThreadInfo_some found
    have flag : record.joinable = other.joinable := (inv.threads i other inside).joinable record value
    have replaced : (∀ i' other' w, some i = some i' -> i' ≠ n -> s.threads[i']? = some other' -> other'.joinable = true ->
        other'.retval = some w -> w = v) ↔ (i ≠ n -> other.joinable = true -> ∀ w, other.retval = some w -> w = v) := by
      constructor
      · intro all apart joinable w
        exact all i other w rfl apart inside joinable
      · rintro all _ other' w ⟨⟩ apart inside' joinable
        obtain rfl : other = other' := Option.some.inj (inside.symm.trans inside')
        exact all apart joinable w
    simp only [infoOf_some.mpr ⟨other, inside, value⟩, Option.any_some, flag, replaced]
    by_cases same : i = n
    · subst same
      obtain rfl : t = other := Option.some.inj (there.symm.trans inside)
      split
      · refine iff_of_true ?_ (by simp)
        show All { s with threads := (s.threads.modify i _).modify i _ } _
        rw [modify_modify_eq]
        refine marked.modify_iff.mpr fun t' _ => ?_
        rintro _ _ info ⟨⟩ has
        obtain ⟨_, -, rfl⟩ := Option.map_eq_some_iff.mp has
        exact ⟨rfl, rfl⟩
      next detached =>
        rw [unwritten]
        simp [detached]
    · split
      next joinable =>
        refine (marked.modify_both_iff same).trans ?_
        rw [and_comm, own]
        simp [inside, value, joinable, same, Thread.Marked, @eq_comm _ v]
      next detached =>
        rw [unwritten]
        simp [same, detached]

theorem marked_perform {action : Action} (inv : Inv s) (marked : All s Thread.Marked) :
    All (perform s action) Thread.Marked ↔ Fine s action := by
  cases action with
  | create n joinable =>
    refine iff_of_true ?_ trivial
    simp only [perform]
    split
    · exact marked_threadCreate marked
    · exact marked
  | join n th =>
    refine iff_of_true ?_ trivial
    simp only [perform]
    split
    · exact marked_pthreadJoin marked
    · exact marked
  | proceed n => exact iff_of_true (marked_proceed marked) trivial
  | insert n =>
    simp only [perform, Fine]
    split
    next child creating =>
      rw [marked_insertThreadInfo marked]
      constructor
      · rintro early child' t same
        rw [creating] at same
        cases same
        exact early t
      · intro early t
        exact early child t creating
    next other =>
      refine iff_of_true marked ?_
      intro child t creating
      exact absurd creating (other child)
  | exit n v =>
    simp only [perform, Fine]
    cases there : s.threads[n]? with
    | none => exact iff_of_true marked fun _ impossible => nomatch impossible
    | some t =>
      by_cases running : t.point = .running
      · simp only [if_pos running]
        rw [marked_pthreadExit inv marked there]
        constructor
        · rintro finds t' ⟨⟩ -
          exact finds
        · intro finds
          exact finds t rfl running
      · simp only [if_neg running]
        refine iff_of_true marked ?_
        rintro t' ⟨⟩ stands
        exact absurd stands running

/--
Ended children are recorded throughout a history just when each record is inserted before its child ends and each
thread that ends finds its own record.
-/
theorem exits_recorded_iff (actions : List Action) :
    (∀ front, front <+: actions -> Recorded (run front)) ↔
      ∀ front action, front ++ [action] <+: actions -> Fine (run front) action := by
  have initial : Recorded start := (recorded_iff start_inv).mpr (by
    intro i t found
    cases i with
    | zero =>
      cases found
      exact fun joinable => by cases joinable
    | succ i => cases found)
  refine @always_iff State Action perform start actions Fine (fun s => Inv s ∧
    Recorded s) Recorded ⟨start_inv, initial⟩ (fun _ safe => safe.2) ?_ ?_
  · rintro s action ⟨inv, recorded⟩ after
    exact (marked_perform inv recorded.marked).mp after.marked
  · rintro s action ⟨inv, recorded⟩ fine
    refine ⟨inv.perform action, (recorded_iff (inv.perform action)).mpr ?_⟩
    exact (marked_perform inv recorded.marked).mpr fine

theorem exit_before_insertion :
    point (run [.create 0 true, .exit 1 7, .proceed 1, .insert 0, .join 0 2]) 0 = some (.waiting 1) ∧
      point (run [.create 0 true, .exit 1 7, .proceed 1, .insert 0, .join 0 2]) 1 = some .ended ∧
      ¬ Recorded (run [.create 0 true, .exit 1 7, .proceed 1, .insert 0]) := by
  refine ⟨by decide, by decide, fun recorded => ?_⟩
  have marked := recorded.marked 1 _ rfl rfl 7 _ rfl rfl
  exact absurd marked.1 (by decide)

-- The id of an ended thread that was not joined is given out again, and the second child marks the record of the first.
example : ¬ Recorded (run [.create 0 true, .insert 0, .exit 1 7, .proceed 1, .create 0 true, .insert 0, .exit 2 9]) :=
  fun recorded => absurd (recorded.marked 2 _ rfl rfl 9 _ rfl rfl).1 (by decide)

end Bincows.Threads
