import Bincows.Fs.Paths
import Bincows.Shared.Execution
import Bincows.Shared.PrefixForest

set_option autoImplicit false

/-! The virtual directories of `vfs_dirs.c`. `strncmp` with the length of a mount path compares characters: `/pipe` is found
for `/pipeline` too. -/

namespace Bincows.Vfs

open PrefixForest List

variable {F : Type}

structure Mounts (F : Type) where
  rootFs : Option F
  vdirs : Forest Char (Option F)

def vfsInit : Mounts F := { rootFs := none, vdirs := .nil }

def lastVdir (s : Mounts F) (path : Str) : Node Char (Option F) :=
  lookup path { key := ['/'], value := s.rootFs, children := s.vdirs } s.vdirs

def getFsVdir (s : Mounts F) (path : Str) : Option (Str × F) :=
  (lastVdir s path).value.map fun fs => ((lastVdir s path).key, fs)

/-- `fs` is `none` when the file system refuses; its vdir stays. -/
def vfsMount (s : Mounts F) (path : Str) (fs : Option F) : Mounts F × Bool :=
  let path := simplifyPath path
  if path = ['/'] then
    match s.rootFs with
    | none => ({ s with rootFs := fs }, fs.isSome)
    | some _ => (s, false)
  else
    match insert path fs ['/'] s.vdirs with
    | none => (s, false)
    | some vdirs => ({ s with vdirs }, fs.isSome)

/-- `busy` for open files or an array of children that is left. -/
def vfsUnmount (s : Mounts F) (path : Str) (busy : Bool) : Mounts F × Bool :=
  let vdir := lastVdir s (simplifyPath path)
  match vdir.value, vdir.children with
  | none, _ => (s, false)
  | some _, .cons _ _ _ _ => (s, false)
  | some _, .nil =>
    if busy then (s, false)
    else if vdir.key = ['/'] then ({ s with rootFs := none }, true)
    else ({ s with vdirs := (remove vdir.key s.vdirs).getD s.vdirs }, true)

structure MountHistory (F : Type) where
  tree : Mounts F
  mounts : List (Str × F)

inductive MountStep : MountHistory F -> MountHistory F -> Prop
  | mount {h : MountHistory F} {tree : Mounts F} (path : Str) (fs : F)
      (succeeds : vfsMount h.tree path (some fs) = (tree, true)) :
      MountStep h { tree, mounts := (simplifyPath path, fs) :: h.mounts }
  | unmount {h : MountHistory F} {tree : Mounts F} (path : Str) (busy : Bool) {point : Str × F}
      (selected : getFsVdir h.tree (simplifyPath path) = some point)
      (succeeds : vfsUnmount h.tree path busy = (tree, true)) :
      MountStep h { tree, mounts := h.mounts.filter fun e => e.1 ≠ point.1 }

def IsOwner (mounts : List (Str × F)) (path : Str) : Option (Str × F) -> Prop
  | none => ∀ e ∈ mounts, ¬ ComponentPrefix e.1 path
  | some m => m ∈ mounts ∧ ComponentPrefix m.1 path ∧ ∀ e ∈ mounts, ComponentPrefix e.1 path -> e.1.length ≤ m.1.length

def Separated (mounts : List (Str × F)) (path : Str) : Prop :=
  ∀ e ∈ mounts, e.1 <+: path -> ComponentPrefix e.1 path ∨ ∃ e' ∈ mounts, ComponentPrefix e'.1 path ∧ e.1.length < e'.1.length

instance (mounts : List (Str × F)) (path : Str) : Decidable (Separated mounts path) :=
  inferInstanceAs (Decidable (∀ e ∈ mounts, e.1 <+: path ->
    ComponentPrefix e.1 path ∨ ∃ e' ∈ mounts, ComponentPrefix e'.1 path ∧ e.1.length < e'.1.length))

def Resolves (h : MountHistory F) (names : List Str) : Prop :=
  IsOwner h.mounts (render names) (getFsVdir h.tree (render names)) ∧
    ∀ point, getFsVdir h.tree (render names) = some point ->
      ∃ front, Valid front ∧ point.1 = render front ∧ names = front ++ openNames point.1 (render names)

section tree

structure Represents (h : MountHistory F) : Prop where
  ordered : Ordered h.tree.vdirs
  canonical : ∀ e ∈ h.mounts, ∃ names, Valid names ∧ e.1 = render names
  keys : ((entries h.tree.vdirs).map Prod.fst).Nodup
  below : ∀ e ∈ entries h.tree.vdirs, ['/'] <+: e.1 ∧ e.1 ≠ ['/']
  tree : ∀ path fs, (path, fs) ∈ h.mounts ↔ (path = ['/'] ∧ h.tree.rootFs = some fs) ∨ (path, some fs) ∈ entries h.tree.vdirs
  used : ∀ e ∈ entries h.tree.vdirs, e.2 ≠ none

variable {h h' : MountHistory F} {path : Str} {tree : Mounts F}

theorem slash_le_render (names : List Str) : ['/'] <+: render names := by
  rw [render]
  split
  · exact prefix_rfl
  · cases names with
    | nil => contradiction
    | cons name names => exact ⟨_, (joined_cons name names).symm⟩

theorem ComponentPrefix.within {m : Str} (names : List Str)
    (below : ComponentPrefix m (render names)) : m <+: render names := by
  rcases below with rfl | rfl | longer
  · exact slash_le_render names
  · exact prefix_rfl
  · exact (prefix_append _ _).trans longer

section

variable (represents : Represents h)
include represents

theorem getFsVdir_longest (rooted : ['/'] <+: path) :
    match getFsVdir h.tree path with
    | none => ∀ e ∈ h.mounts, ¬ e.1 <+: path
    | some m => m ∈ h.mounts ∧ m.1 <+: path ∧ ∀ e ∈ h.mounts, e.1 <+: path -> e.1.length ≤ m.1.length := by
  have longest := lookup_longest represents.ordered path { key := ['/'], value := h.tree.rootFs, children := h.tree.vdirs }
  change (lastVdir h.tree path = _ ∧ _) ∨ ((_, (lastVdir h.tree path).value) ∈ _ ∧ _ ∧ _) at longest
  rw [getFsVdir]
  rcases longest with ⟨root, none⟩ | ⟨found, within, longest⟩
  · rw [root]
    cases mounted : h.tree.rootFs with
    | none =>
      rintro ⟨e, fs⟩ member isPrefix
      rcases (represents.tree e fs).mp member with ⟨-, impossible⟩ | vdir
      · rw [mounted] at impossible
        cases impossible
      · exact none _ vdir isPrefix
    | some fs =>
      refine ⟨(represents.tree _ _).mpr (.inl ⟨rfl, mounted⟩), rooted, ?_⟩
      rintro ⟨e, fs'⟩ member isPrefix
      rcases (represents.tree e fs').mp member with ⟨rfl, -⟩ | vdir
      · exact Nat.le_refl _
      · exact absurd isPrefix (none _ vdir)
  · cases value : (lastVdir h.tree path).value with
    | none => exact absurd value (represents.used _ found)
    | some fs =>
      rw [value] at found
      refine ⟨(represents.tree _ _).mpr (.inr found), within, ?_⟩
      rintro ⟨e, fs'⟩ member isPrefix
      rcases (represents.tree e fs').mp member with ⟨rfl, -⟩ | vdir
      · exact (represents.below _ found).1.length_le
      · exact longest _ vdir isPrefix

theorem Represents.unique (path : Str) {fs fs' : F} (first : (path, fs) ∈ h.mounts)
    (second : (path, fs') ∈ h.mounts) : fs = fs' := by
  rcases (represents.tree path fs).mp first with ⟨root, mounted⟩ | vdir
  · rcases (represents.tree path fs').mp second with ⟨-, mounted'⟩ | vdir'
    · rw [mounted] at mounted'
      exact Option.some.inj mounted'
    · exact absurd root (represents.below _ vdir').2
  · rcases (represents.tree path fs').mp second with ⟨root, -⟩ | vdir'
    · exact absurd root (represents.below _ vdir).2
    · have same := inj_on_of_nodup_map represents.keys vdir vdir' rfl
      exact Option.some.inj (congrArg Prod.snd same)

theorem mount_represents {fs : F} (succeeds : vfsMount h.tree path (some fs) = (tree, true)) :
    Represents { tree, mounts := (simplifyPath path, fs) :: h.mounts } := by
  obtain ⟨names, valid, canonical⟩ := simplifyPath_canonical path
  have allCanonical : ∀ e ∈ (simplifyPath path, fs) :: h.mounts, ∃ names, Valid names ∧ e.1 = render names :=
    forall_mem_cons.mpr ⟨⟨names, valid, canonical⟩, represents.canonical⟩
  rw [vfsMount] at succeeds
  by_cases root : simplifyPath path = ['/']
  · simp only [if_pos root] at succeeds
    cases free : h.tree.rootFs with
    | some other =>
      rw [free] at succeeds
      cases succeeds
    | none =>
      rw [free] at succeeds
      cases succeeds
      refine { represents with canonical := allCanonical, tree := ?_ }
      intro path' fs'
      rw [mem_cons, represents.tree, free, Prod.mk.injEq, root]
      simp [@eq_comm _ fs]
  · simp only [if_neg root] at succeeds
    cases inserted : insert (simplifyPath path) (some fs) ['/'] h.tree.vdirs with
    | none =>
      rw [inserted] at succeeds
      cases succeeds
    | some vdirs =>
      rw [inserted] at succeeds
      cases succeeds
      obtain ⟨ordered, different, fresh, perm⟩ := insert_spec represents.ordered represents.below inserted
      refine ⟨ordered, allCanonical, ?_, ?_, ?_, ?_⟩
      · rw [(perm.map Prod.fst).nodup_iff, map_cons, nodup_cons]
        refine ⟨fun member => ?_, represents.keys⟩
        obtain ⟨e, there, same⟩ := mem_map.mp member
        exact fresh e there same
      · exact fun e member => forall_mem_cons.mpr ⟨⟨canonical ▸ slash_le_render names, root⟩,
          represents.below⟩ e (perm.subset member)
      · intro path' fs'
        rw [perm.mem_iff, mem_cons, mem_cons, represents.tree, Prod.mk.injEq, Prod.mk.injEq, Option.some.injEq]
        tauto
      · intro e member
        rcases mem_cons.mp (perm.mem_iff.mp member) with rfl | old
        · exact Option.some_ne_none fs
        · exact represents.used e old

theorem unmount_represents {busy : Bool} {point : Str × F}
    (selected : getFsVdir h.tree (simplifyPath path) = some point) (succeeds : vfsUnmount h.tree path busy = (tree, true)) :
    Represents { tree, mounts := h.mounts.filter fun e => e.1 ≠ point.1 } := by
  rw [vfsUnmount] at succeeds
  generalize simplifyPath path = query at selected succeeds
  have longest := lookup_longest represents.ordered query { key := ['/'], value := h.tree.rootFs, children := h.tree.vdirs }
  obtain ⟨fs, value, rfl⟩ := Option.map_eq_some_iff.mp selected
  have left : ∀ e ∈ h.mounts.filter fun e => e.1 ≠ (lastVdir h.tree query).key,
      ∃ names, Valid names ∧ e.1 = render names := fun e member => represents.canonical e (mem_filter.mp member).1
  simp only [value] at succeeds
  cases children : (lastVdir h.tree query).children with
  | cons key value' below beside =>
    rw [children] at succeeds
    cases succeeds
  | nil =>
    simp only [children] at succeeds
    cases busy with
    | true => cases succeeds
    | false =>
      by_cases root : (lastVdir h.tree query).key = ['/']
      · rw [if_pos root] at succeeds
        cases succeeds
        refine { represents with canonical := left, tree := ?_ }
        intro path' fs'
        rw [root, mem_filter, represents.tree]
        have below := represents.below (path', some fs')
        simp only [decide_eq_true_eq, reduceCtorEq, and_false, false_or]
        tauto
      · rw [if_neg root] at succeeds
        have found : ((lastVdir h.tree query).key, (lastVdir h.tree query).value) ∈ entries h.tree.vdirs := by
          rcases longest with ⟨same, -⟩ | ⟨found, -⟩
          · exact absurd (congrArg Node.key same) root
          · exact found
        obtain ⟨vdirs, removed, ordered, perm⟩ :=
          remove_spec represents.ordered found fun e member => (represents.below e member).2
        rw [← lastVdir] at removed perm
        rw [children, entries, nil_append] at perm
        rw [removed] at succeeds
        cases succeeds
        have keys := represents.keys
        rw [(perm.map Prod.fst).nodup_iff, map_cons, nodup_cons] at keys
        refine ⟨ordered, left, keys.2, ?_, ?_, ?_⟩
        · exact fun e member => represents.below e (perm.mem_iff.mpr (mem_cons_of_mem _ member))
        · intro path' fs'
          rw [mem_filter, represents.tree, perm.mem_iff, mem_cons]
          constructor
          · rintro ⟨rooted | same | vdir, other⟩
            · exact .inl rooted
            · exact absurd (congrArg Prod.fst same) (by simpa using other)
            · exact .inr vdir
          rintro (⟨rfl, mounted⟩ | vdir)
          · exact ⟨.inl ⟨rfl, mounted⟩, by simpa using Ne.symm root⟩
          · refine ⟨.inr (.inr vdir), ?_⟩
            simp only [decide_eq_true_eq]
            rintro rfl
            exact keys.1 (mem_map.mpr ⟨_, vdir, rfl⟩)
        · exact fun e member => represents.used e (perm.mem_iff.mpr (mem_cons_of_mem _ member))

end

theorem vfsInit_represents : Represents ({ tree := vfsInit, mounts := [] } : MountHistory F) := by
  constructor <;> simp [vfsInit, entries, Ordered]

theorem mountSteps_represent (run : ReflTransGen MountStep { tree := vfsInit, mounts := [] } h) : Represents h := by
  refine run.invariant Represents vfsInit_represents ?_
  intro h h' represents step
  cases step with
  | mount path fs succeeds => exact mount_represents represents succeeds
  | unmount path busy selected succeeds => exact unmount_represents represents selected succeeds

end tree

section resolution

variable {h h' : MountHistory F} {names : List Str}

theorem isOwner_iff (represents : Represents h) (names : List Str) :
    IsOwner h.mounts (render names) (getFsVdir h.tree (render names)) ↔ Separated h.mounts (render names) := by
  have longest := getFsVdir_longest represents (slash_le_render names)
  cases selected : getFsVdir h.tree (render names) with
  | none =>
    rw [selected] at longest
    constructor
    · intro _ e member within
      exact absurd within (longest e member)
    · intro _ e member below
      exact longest e member (below.within names)
  | some m =>
    rw [selected] at longest
    obtain ⟨mounted, within, longest⟩ := longest
    constructor
    · rintro ⟨-, owner, -⟩ e member shorter
      rcases Nat.lt_or_ge e.1.length m.1.length with less | equal
      · exact .inr ⟨m, mounted, owner, less⟩
      · have same : e.1 = m.1 := IsPrefix.eq_of_length_le
          (prefix_of_prefix_length_le shorter within (longest e member shorter)) equal
        exact .inl (same ▸ owner)
    · intro separated
      refine ⟨mounted, ?_, fun e member below => longest e member (below.within names)⟩
      rcases separated m mounted within with owner | ⟨e, member, below, longer⟩
      · exact owner
      · have := longest e member (below.within names)
        omega

theorem resolves_iff (represents : Represents h) (valid : Valid names) :
    Resolves h names ↔ Separated h.mounts (render names) := by
  constructor
  · exact fun resolves => (isOwner_iff represents names).mp resolves.1
  intro separated
  have owner := (isOwner_iff represents names).mpr separated
  refine ⟨owner, fun point selected => ?_⟩
  rw [selected] at owner
  obtain ⟨front, validFront, canonical⟩ := represents.canonical point owner.1
  have below := owner.2.1
  rw [canonical, componentPrefix_render validFront valid] at below
  obtain ⟨rest, rfl⟩ := below
  exact ⟨front, validFront, canonical, by rw [canonical, openNames_append front rest valid]⟩

theorem getFsVdir_same (represents : Represents h) (represents' : Represents h')
    (same : ∀ e, e ∈ h'.mounts ↔ e ∈ h.mounts) (names : List Str) :
    getFsVdir h'.tree (render names) = getFsVdir h.tree (render names) := by
  have longest := getFsVdir_longest represents (slash_le_render names)
  have longest' := getFsVdir_longest represents' (slash_le_render names)
  cases selected : getFsVdir h.tree (render names) with
  | none =>
    cases selected' : getFsVdir h'.tree (render names) with
    | none => rfl
    | some m =>
      rw [selected] at longest
      rw [selected'] at longest'
      exact absurd longest'.2.1 (longest m ((same m).mp longest'.1))
  | some m =>
    rw [selected] at longest
    cases selected' : getFsVdir h'.tree (render names) with
    | none =>
      rw [selected'] at longest'
      exact absurd longest.2.1 (longest' m ((same m).mpr longest.1))
    | some m' =>
      rw [selected'] at longest'
      have shorter := longest'.2.2 m ((same m).mpr longest.1) longest.2.1
      have shorter' := longest.2.2 m' ((same m').mp longest'.1) longest'.2.1
      have paths : m'.1 = m.1 :=
        IsPrefix.eq_of_length_le (prefix_of_prefix_length_le longest'.2.1 longest.2.1 shorter') shorter
      have files : m'.2 = m.2 := represents.unique m.1 (paths ▸ (same m').mp longest'.1) longest.1
      exact congrArg some (Prod.ext paths files)

theorem mount_resolution_iff (run : Relation.ReflTransGen MountStep { tree := vfsInit, mounts := [] } h)
    (valid : Valid names) :
    (Resolves h names ↔ Separated h.mounts (render names)) ∧
      ∀ h', Relation.ReflTransGen MountStep { tree := vfsInit, mounts := [] } h' ->
        (∀ e, e ∈ h'.mounts ↔ e ∈ h.mounts) -> getFsVdir h'.tree (render names) = getFsVdir h.tree (render names) :=
  ⟨resolves_iff (mountSteps_represent run) valid,
    fun _ run' same => getFsVdir_same (mountSteps_represent run) (mountSteps_represent run') same names⟩

theorem mount_resolution_nested :
    ∃ h : MountHistory Nat, Relation.ReflTransGen MountStep { tree := vfsInit, mounts := [] } h ∧
      h.mounts = [("/a".toList, 2), ("/a/b".toList, 1), ("/".toList, 0)] ∧
      Resolves h ["a".toList, "b".toList, "c".toList] := by
  have run : ReflTransGen MountStep { tree := vfsInit, mounts := [] } _ :=
    .tail (.tail (.tail .refl (.mount "/".toList 0 rfl)) (.mount "/a/b".toList 1 rfl)) (.mount "/a".toList 2 rfl)
  exact ⟨_, run, by decide, (mount_resolution_iff run (by decide)).1.mpr (by decide)⟩

theorem mount_captures_longer_name :
    ∃ h : MountHistory Nat, Relation.ReflTransGen MountStep { tree := vfsInit, mounts := [] } h ∧
      h.mounts = [("/pipe".toList, 1), ("/".toList, 0)] ∧
      getFsVdir h.tree (render ["pipeline".toList]) = some ("/pipe".toList, 1) ∧
      ¬ Resolves h ["pipeline".toList] := by
  have run : ReflTransGen MountStep { tree := vfsInit, mounts := [] } _ :=
    .tail (.tail .refl (.mount "/".toList 0 rfl)) (.mount "/pipe".toList 1 rfl)
  refine ⟨_, run, by decide, by decide, ?_⟩
  rw [resolves_iff (mountSteps_represent run) (by decide)]
  decide

/-- A file system that is refused leaves its vdir behind: below it nothing is found any more, and
nothing can be mounted there. -/
theorem failed_mount_unchanged_iff {s s' : Mounts F} {path : Str} {fs : Option F} (g : F)
    (fails : vfsMount s path fs = (s', false)) :
    ((∀ query, getFsVdir s' query = getFsVdir s query) ∧ (vfsMount s' path (some g)).2 = (vfsMount s path (some g)).2) ↔
      simplifyPath path = ['/'] ∨ (lastVdir s (simplifyPath path)).key = simplifyPath path := by
  rw [lastVdir, ← insert_eq_none_iff fs]
  by_cases root : simplifyPath path = ['/']
  · have same : s' = s := by
      rw [vfsMount, if_pos root] at fails
      cases free : s.rootFs <;> simp_all
      obtain ⟨rfl, rfl⟩ := fails
      rw [← free]
    simp [root, same]
  · cases inserted : insert (simplifyPath path) fs ['/'] s.vdirs with
    | none =>
      simp only [vfsMount, root, if_false, inserted, Prod.mk.injEq] at fails
      simp [fails.1]
    | some vdirs =>
      have accepts : insert (simplifyPath path) (some g) ['/'] s.vdirs ≠ none := by
        rw [ne_eq, insert_eq_none_iff _ { key := ['/'], value := s.rootFs, children := s.vdirs }, ← insert_eq_none_iff fs]
        simp [inserted]
      obtain ⟨new, accepted⟩ := Option.ne_none_iff_exists'.mp accepts
      simp only [vfsMount, root, if_false, inserted, Prod.mk.injEq] at fails
      simp [vfsMount, root, accepted, ← fails.1, insert_twice inserted]

def rooted : Mounts Nat := { rootFs := some 0, vdirs := .nil }

def taken : Mounts Nat := (vfsMount rooted "/a".toList (some 1)).1

theorem failed_mount_unchanged_root :
    (∃ s' : Mounts Nat, vfsMount vfsInit "/".toList none = (s', false) ∧ (vfsMount s' "/".toList (some 1)).2 = true) ∧
      ∃ s', vfsMount taken "//a/".toList (some 2) = (s', false) ∧ ∀ query, getFsVdir s' query = getFsVdir taken query := by
  have fails : vfsMount (vfsInit : Mounts Nat) "/".toList none = (vfsInit, false) := rfl
  have refused : vfsMount taken "//a/".toList (some 2) = (taken, false) := rfl
  exact ⟨⟨_, fails, ((failed_mount_unchanged_iff 1 fails).mpr (.inl (by decide))).2⟩,
    _, refused, ((failed_mount_unchanged_iff 1 refused).mpr (.inr (by decide))).1⟩

theorem failed_mount_hides_files : ∃ s', vfsMount rooted "/a".toList none = (s', false) ∧
    getFsVdir rooted "/a/x".toList = some ("/".toList, 0) ∧ getFsVdir s' "/a/x".toList = none ∧
    (vfsMount rooted "/a".toList (some 1)).2 = true ∧ (vfsMount s' "/a".toList (some 1)).2 = false :=
  ⟨_, rfl, rfl, rfl, rfl, rfl⟩

end resolution

end Bincows.Vfs
