import Bincows.Drivers.BlockCacheRefinement

set_option autoImplicit false

/-! What `prefetch`, `fetch_page` and `target_sync` do under the lock is one step of a thread; the device completes its
reads in any order, and a sync returns once the reads issued before it are complete. -/

namespace Bincows.BlockCache

open Function List

variable {S T : Type}

/-- Where a thread is. `back` says what follows the current `target_sync`: the retry of a fetch, or the end. -/
inductive Pc where
  | done
  | loop (lba count : Nat)
  | retry (lba count : Nat)
  | sync (back : Option (Nat × Nat))
  | call (lastId : Nat) (back : Option (Nat × Nat))
  | wait (lastId : Nat) (before : List PageFetch) (back : Option (Nat × Nat))
  | finish (lastId : Nat) (back : Option (Nat × Nat))
  deriving DecidableEq

structure Threads (S T : Type) where
  host : Host S
  pc : T -> Pc
  issued : List PageFetch
  mapped : List PageFetch

inductive Event (T : Type) where
  | start (t : T) (lba count : Nat)
  | advance (t : T)
  | complete (f : PageFetch)

def Pc.after : Option (Nat × Nat) -> Pc
  | none => .done
  | some (lba, count) => .retry lba count

def Pc.next (cache : BlockPageCache) (lba count : Nat) : Pc :=
  let taken := sectorsInIteration lba count cache.sectorsPerPage
  .loop (lba + taken) (count - taken)

def issuing (s : Threads S T) (t : T) : Option Nat :=
  let cache := s.host.cache
  match s.pc t with
  | .loop lba count =>
    if count = 0 ∨ checkPresentPage cache lba ∨ isFetching cache lba ∨ maxPageFetches ≤ cache.pageFetches.length then none
    else some lba
  | .retry lba _ => if maxPageFetches ≤ cache.pageFetches.length then none else some lba
  | _ => none

variable [DecidableEq T]

def Threads.go (s : Threads S T) (t : T) (pc : Pc) : Threads S T :=
  { s with pc := update s.pc t pc }

def Threads.issue (s : Threads S T) (lba : Nat) : Threads S T :=
  { s with
    host := issueFetch s.host lba
    issued := s.issued ++ [{ lba := s.host.cache.pageBegin lba, paddr := s.host.nextFrame, pfId := 0 }] }

def advance (s : Threads S T) (t : T) : Except Fault (Threads S T) :=
  let cache := s.host.cache
  match s.pc t with
  | .done => .ok s
  | .loop lba count =>
    if count = 0 then .ok (s.go t (.sync none))
    else if checkPresentPage cache lba ∨ isFetching cache lba then .ok (s.go t (.next cache lba count))
    else if maxPageFetches ≤ cache.pageFetches.length then .ok (s.go t (.sync (some (lba, count))))
    else .ok ((s.issue lba).go t (.next cache lba count))
  | .retry lba count =>
    if maxPageFetches ≤ cache.pageFetches.length then .ok (s.go t (.sync (some (lba, count))))
    else .ok ((s.issue lba).go t (.next cache lba count))
  | .sync back =>
    match cache.pageFetches.getLast? with
    | none => .ok (s.go t (.after back))
    | some last => .ok (s.go t (.call last.pfId back))
  | .call lastId back => .ok (s.go t (.wait lastId s.host.reads back))
  | .wait lastId _ back => .ok (s.go t (.finish lastId back))
  | .finish lastId back => do
    let cache ← mapFetched s.host.cache lastId
    let ready := s.host.cache.pageFetches.takeWhile fun f => f.pfId ≤ lastId
    .ok ({ s with host := { s.host with cache }, mapped := s.mapped ++ ready }.go t (.after back))

def perform (s : Threads S T) : Event T -> Except Fault (Threads S T)
  | .start t lba count => .ok (s.go t (.loop lba count))
  | .advance t => advance s t
  | .complete f =>
    .ok { s with host := { s.host with frames := load s.host.disk s.host.frames f, reads := s.host.reads.erase f } }

def Enabled (s : Threads S T) : Event T -> Prop
  | .start t _ _ => s.pc t = .done
  | .advance t => s.pc t ≠ .done ∧ ∀ lastId before back, s.pc t = .wait lastId before back ->
    ∀ f ∈ before, f ∉ s.host.reads
  | .complete f => f ∈ s.host.reads

def ThreadStep (s s' : Threads S T) : Prop := ∃ e, Enabled s e ∧ perform s e = .ok s'

def Pc.Syncing : Pc -> Prop
  | .wait _ _ _ => True
  | .finish _ _ => True
  | _ => False

/-- A fetch is issued only while no thread waits in a sync, for a page that is not there and not being fetched. -/
def Undisturbed (s : Threads S T) : Event T -> Prop
  | .advance t => ∀ lba, issuing s t = some lba ->
      (∀ t', ¬ (s.pc t').Syncing) ∧ checkPresentPage s.host.cache lba = false ∧ isFetching s.host.cache lba = false
  | _ => True

def QuietStep (s s' : Threads S T) : Prop :=
  ∃ e, Enabled s e ∧ Undisturbed s e ∧ perform s e = .ok s'

def startThreads (shape : Shape) (disk : Nat -> S) (frames : Nat -> Nat -> S) : Threads S T :=
  { host := blockCacheSetup shape disk frames
    pc := fun _ => .done
    issued := []
    mapped := [] }

section orderly

variable {shape : Shape} {s s' : Threads S T} {t : T} {lba : Nat} {back : Option (Nat × Nat)}

structure Orderly (shape : Shape) (s : Threads S T) : Prop where
  fixed : s.host.cache.shape = shape
  split : s.issued = s.mapped ++ s.host.cache.pageFetches
  record : ∀ f ∈ s.issued, f.pfId = 0 ∧ f.paddr < s.host.nextFrame ∧
    f.lba / shape.sectors * shape.sectors = f.lba
  pages : (s.issued.map fun f => f.lba / shape.sectors).Nodup
  frames : (s.issued.map PageFetch.paddr).Nodup
  present : ∀ page frame, s.host.cache.mapped page = some frame ↔
    ∃ f ∈ s.mapped, f.lba / shape.sectors = page ∧ f.paddr = frame
  reads : ∀ f ∈ s.host.reads, f ∈ s.issued
  once : s.host.reads.Nodup
  loaded : ∀ f ∈ s.issued, f ∉ s.host.reads -> s.host.frames f.paddr = fun i =>
    s.host.disk (f.lba + i)
  complete : ∀ f ∈ s.mapped, f ∉ s.host.reads
  waiting : ∀ t lastId before back, s.pc t = .wait lastId before back ->
    ∀ f ∈ s.host.cache.pageFetches, f ∈ s.host.reads -> f ∈ before
  finishing : ∀ t lastId back, s.pc t = .finish lastId back -> ∀ f ∈ s.host.cache.pageFetches,
    f ∉ s.host.reads
  ends : (∀ t, s.pc t = .done) -> s.host.cache.pageFetches = []

section

variable (orderly : Orderly shape s)
include orderly

omit [DecidableEq T] in
theorem Orderly.sectors : s.host.cache.sectorsPerPage = shape.sectors := by
  rw [BlockPageCache.sectorsPerPage_eq, orderly.fixed]

omit [DecidableEq T] in
theorem Orderly.page (lba : Nat) : s.host.cache.page lba = lba / shape.sectors := by
  rw [BlockPageCache.page, orderly.sectors]

theorem Orderly.go (pc : Pc)
    (waiting : ∀ lastId before back, pc = .wait lastId before back ->
      ∀ f ∈ s.host.cache.pageFetches, f ∈ s.host.reads -> f ∈ before)
    (finishing : ∀ lastId back, pc = .finish lastId back -> ∀ f ∈ s.host.cache.pageFetches, f ∉ s.host.reads)
    (ends : pc = .done -> s.host.cache.pageFetches = []) : Orderly shape (s.go t pc) := by
  refine { orderly with waiting := ?_, finishing := ?_, ends := ?_ }
  · intro t' lastId before back at'
    rcases update_eq.mp at' with ⟨-, own⟩ | ⟨-, other⟩
    · exact waiting lastId before back own
    · exact orderly.waiting t' lastId before back other
  · intro t' lastId back at'
    rcases update_eq.mp at' with ⟨-, own⟩ | ⟨-, other⟩
    · exact finishing lastId back own
    · exact orderly.finishing t' lastId back other
  · intro all
    have own : update s.pc t pc t = .done := all t
    rw [update_self] at own
    exact ends own

theorem Orderly.move {pc : Pc} (outside : ¬ pc.Syncing) (active : pc ≠ .done) :
    Orderly shape (s.go t pc) := by
  refine orderly.go pc ?_ ?_ fun done => absurd done active
  · rintro lastId before back rfl
    exact absurd trivial outside
  · rintro lastId back rfl
    exact absurd trivial outside

theorem Orderly.issue (positive : 0 < shape.sectors) (quiet : ∀ t, ¬ (s.pc t).Syncing)
    (absent : checkPresentPage s.host.cache lba = false) (fetching : isFetching s.host.cache lba = false) (a b : Nat) :
    Orderly shape ((s.issue lba).go t (.loop a b)) := by
  have begin : s.host.cache.pageBegin lba = lba / shape.sectors * shape.sectors := by
    rw [BlockPageCache.pageBegin, orderly.page, orderly.sectors]
  have page : s.host.cache.pageBegin lba / shape.sectors = lba / shape.sectors := by
    rw [begin, Nat.mul_div_cancel _ positive]
  have newPage : ∀ f ∈ s.issued, f.lba / shape.sectors ≠ lba / shape.sectors := by
    intro f member same
    rw [orderly.split] at member
    rcases mem_append.mp member with mapped | listed
    · have there := (orderly.present _ _).mpr ⟨f, mapped, same, rfl⟩
      rw [checkPresentPage, orderly.page, there] at absent
      cases absent
    · have aligned := (orderly.record f (orderly.split ▸ member)).2.2
      have recorded := any_eq_false.mp fetching f listed
      rw [begin, ← same, aligned, beq_self_eq_true] at recorded
      exact recorded rfl
  have old : ∀ f ∈ s.issued, f.paddr ≠ s.host.nextFrame :=
    fun f member => ((orderly.record f member).2.1).ne
  constructor
  · exact orderly.fixed
  · show s.issued ++ [_] = s.mapped ++ (s.host.cache.pageFetches ++ [_])
    rw [orderly.split, append_assoc]
  · refine forall_mem_concat (fun f before => ?_) ?_
    · obtain ⟨first, frame, aligned⟩ := orderly.record f before
      exact ⟨first, frame.trans (Nat.lt_succ_self _), aligned⟩
    · refine ⟨rfl, Nat.lt_succ_self _, ?_⟩
      rw [page, begin]
  · exact orderly.pages.map_concat fun f member => page.symm ▸ newPage f member
  · exact orderly.frames.map_concat old
  · exact orderly.present
  · intro f member
    rcases mem_append.mp member with before | new
    · exact mem_append_left _ (orderly.reads f before)
    · exact mem_append_right _ new
  · refine nodup_append_comm.mpr (nodup_cons.mpr ⟨?_, orderly.once⟩)
    exact fun before => old _ (orderly.reads _ before) rfl
  · refine forall_mem_concat (fun f before unread => ?_) fun unread => absurd mem_concat_self unread
    exact orderly.loaded f before fun read => unread (mem_append_left _ read)
  · intro f member read
    have before : f ∈ s.issued := orderly.split ▸ mem_append_left _ member
    rcases mem_concat.mp read with earlier | rfl
    · exact orderly.complete f member earlier
    · exact old _ before rfl
  · intro t' lastId before back at'
    rcases update_eq.mp at' with ⟨-, ⟨⟩⟩ | ⟨-, other⟩
    exact absurd (other ▸ trivial) (quiet t')
  · intro t' lastId back at'
    rcases update_eq.mp at' with ⟨-, ⟨⟩⟩ | ⟨-, other⟩
    exact absurd (other ▸ trivial) (quiet t')
  · intro all
    have own : update s.pc t (.loop a b) t = .done := all t
    rw [update_self] at own
    cases own

omit [DecidableEq T] in
theorem Orderly.maps (lastId : Nat) :
    s.host.cache.pageFetches.takeWhile (fun f => f.pfId ≤ lastId) = s.host.cache.pageFetches ∧
      ∃ mapped, mapFetched s.host.cache lastId = .ok { s.host.cache with mapped, pageFetches := [] } ∧
        ∀ page frame, mapped page = some frame ↔ ∃ f ∈ s.issued, f.lba / shape.sectors = page ∧ f.paddr = frame := by
  have listed : ∀ f ∈ s.host.cache.pageFetches, f ∈ s.issued :=
    fun f member => orderly.split ▸ mem_append_right _ member
  have ready : s.host.cache.pageFetches.takeWhile (fun f => f.pfId ≤ lastId) = s.host.cache.pageFetches := by
    refine takeWhile_eq_self_iff.mpr fun f member => ?_
    rw [(orderly.record f (listed f member)).1, decide_eq_true (Nat.zero_le _)]
  have pages := orderly.pages
  rw [orderly.split, map_append] at pages
  obtain ⟨-, nodup, apart⟩ := nodup_append.mp pages
  have unmapped : ∀ f ∈ s.host.cache.pageFetches, s.host.cache.mapped (f.lba / shape.sectors) = none := by
    intro f member
    by_contra there
    obtain ⟨frame, found⟩ := Option.ne_none_iff_exists'.mp there
    obtain ⟨g, mapped, same, -⟩ := (orderly.present _ _).mp found
    exact apart _ (mem_map_of_mem mapped) _ (mem_map_of_mem member) same
  have maps := mapFetches_ok s.host.cache s.host.cache.pageFetches
  rw [orderly.sectors] at maps
  rw [mapFetched, ready, maps unmapped nodup]
  simp only [bind, Except.bind, drop_length]
  refine ⟨trivial, _, rfl, fun page frame => ?_⟩
  by_cases fetched : ∃ f ∈ s.host.cache.pageFetches, f.lba / shape.sectors = page
  · obtain ⟨f, member, rfl⟩ := fetched
    rw [Tables.foldl_update_mem nodup member, Option.some_inj]
    constructor
    · exact fun same => ⟨f, listed f member, rfl, same⟩
    · rintro ⟨g, inside, same, rfl⟩
      rw [inj_on_of_nodup_map orderly.pages inside (listed f member) same]
  · rw [Tables.foldl_update_other fun f member same => fetched ⟨f, member, same⟩, orderly.present]
    refine exists_congr fun f => and_congr_left fun here => ?_
    rw [orderly.split, mem_append]
    exact (or_iff_left fun new => fetched ⟨f, new, here.1⟩).symm

theorem Orderly.finish {lastId : Nat} (at' : s.pc t = .finish lastId back)
    {mapped : Nat -> Option Nat} (present : ∀ page frame, mapped page = some frame ↔
      ∃ f ∈ s.issued, f.lba / shape.sectors = page ∧ f.paddr = frame) :
    Orderly shape ({ s with
      host := { s.host with cache := { s.host.cache with mapped, pageFetches := [] } }
      mapped := s.mapped ++ s.host.cache.pageFetches }.go t (.after back)) := by
  rw [← orderly.split]
  refine { orderly with
    split := (append_nil _).symm, present, complete := ?_, waiting := nofun, finishing := nofun, ends := fun _ => rfl }
  rw [orderly.split]
  exact forall_mem_append.mpr ⟨orderly.complete, orderly.finishing t lastId back at'⟩

omit [DecidableEq T] in
theorem Orderly.load {f : PageFetch} (read : f ∈ s.host.reads) :
    Orderly shape { s with
      host := { s.host with frames := load s.host.disk s.host.frames f, reads := s.host.reads.erase f } } := by
  have fewer : ∀ g ∈ s.host.reads.erase f, g ∈ s.host.reads :=
    fun g member => mem_of_mem_erase member
  refine
    { orderly with
      reads := fun g member => orderly.reads g (fewer g member)
      once := orderly.once.erase f
      loaded := ?_
      complete := fun g member still => orderly.complete g member (fewer g still)
      waiting := fun t lastId before back at' g member still =>
        orderly.waiting t lastId before back at' g member (fewer g still)
      finishing := fun t lastId back at' g member still => orderly.finishing t lastId back at' g member (fewer g still) }
  intro g member unread
  show update s.host.frames f.paddr _ g.paddr = _
  by_cases same : g = f
  · rw [same, update_self]
  · have frames : g.paddr ≠ f.paddr := fun again =>
      same (inj_on_of_nodup_map orderly.frames member (orderly.reads f read) again)
    rw [update_of_ne frames]
    exact orderly.loaded g member fun still => unread ((mem_erase_of_ne same).mpr still)

theorem Orderly.after (none : s.host.cache.pageFetches = []) :
    Orderly shape (s.go t (.after back)) := by
  refine orderly.go _ ?_ ?_ fun _ => none
  · intro lastId before next at'
    cases back <;> cases at'
  · intro lastId next at'
    cases back <;> cases at'

theorem Orderly.advance (positive : 0 < shape.sectors) (t : T) :
    (advance s t).Returns fun s' => Enabled s (.advance t) -> Undisturbed s (.advance t) -> Orderly shape s' := by
  have issue {lba : Nat} (issues : issuing s t = some lba) (undisturbed : Undisturbed s (.advance t)) (a b : Nat) :
      Orderly shape ((s.issue lba).go t (.loop a b)) := by
    obtain ⟨quiet, notPresent, notFetching⟩ := undisturbed lba issues
    exact orderly.issue positive quiet notPresent notFetching a b
  rw [BlockCache.advance]
  cases pc : s.pc t with
  | done => exact fun enabled => absurd pc enabled.1
  | loop lba count =>
    simp only
    split
    · exact fun _ _ => orderly.move id nofun
    split
    · exact fun _ _ => orderly.move id nofun
    split
    · exact fun _ _ => orderly.move id nofun
    · refine fun _ undisturbed => issue ?_ undisturbed _ _
      simp only [issuing, pc]
      exact if_neg (by tauto)
  | retry lba count =>
    simp only
    split
    case isTrue => exact fun _ _ => orderly.move id nofun
    case isFalse room =>
      refine fun _ undisturbed => issue ?_ undisturbed _ _
      simp only [issuing, pc]
      exact if_neg room
  | sync back =>
    cases last : s.host.cache.pageFetches.getLast? with
    | none => exact fun _ _ => orderly.after (List.getLast?_eq_none_iff.mp last)
    | some f => exact fun _ _ => orderly.move id nofun
  | call lastId back =>
    refine fun _ _ => orderly.go _ ?_ nofun nofun
    intro _ before _ at' f _ read
    cases at'
    exact read
  | wait lastId before back =>
    refine fun enabled _ => orderly.go _ nofun ?_ nofun
    intro _ _ _ f member read
    exact enabled.2 lastId before back pc f (orderly.waiting t lastId before back pc f member read) read
  | finish lastId back =>
    obtain ⟨ready, mapped, maps, present⟩ := orderly.maps lastId
    simp only [maps, ready]
    exact fun _ _ => orderly.finish pc present

end

theorem step_orderly (positive : 0 < shape.sectors) (orderly : Orderly shape s)
    (step : QuietStep s s') : Orderly shape s' := by
  obtain ⟨e, enabled, undisturbed, returns⟩ := step
  cases e with
  | start t lba count =>
    cases returns
    exact orderly.move id nofun
  | advance t => exact (orderly.advance positive t).of_ok returns enabled undisturbed
  | complete f =>
    cases returns
    exact orderly.load enabled

omit [DecidableEq T] in
theorem start_orderly (shape : Shape) (disk : Nat -> S) (frames : Nat -> Nat -> S) :
    Orderly shape (startThreads shape disk frames : Threads S T) where
  fixed := rfl
  split := rfl
  record := nofun
  pages := .nil
  frames := .nil
  present := by
    intro page frame
    constructor
    · nofun
    · rintro ⟨f, impossible, -⟩
      cases impossible
  reads := nofun
  once := .nil
  loaded := nofun
  complete := nofun
  waiting := nofun
  finishing := nofun
  ends := fun _ => rfl

end orderly

/-- While fetches are issued only outside of the syncs of all threads, a page is mapped only with
its sectors in the frame, and each fetch is mapped once: those issued are, in order, those mapped
and those still recorded, and none is left at the end. -/
theorem quiet_fetches_mapped_once {shape : Shape} (small : shape.lbashift < 12) (disk : Nat -> S)
    (frames : Nat -> Nat -> S)
    {s : Threads S T} (run : Relation.ReflTransGen QuietStep (startThreads shape disk frames) s) :
    (∀ f ∈ s.mapped, f ∉ s.host.reads) ∧
      (∀ page frame, s.host.cache.mapped page = some frame ->
        ∀ i, s.host.frames frame i = s.host.disk (page * shape.sectors + i)) ∧
      s.issued = s.mapped ++ s.host.cache.pageFetches ∧ (s.issued.map fun f => f.lba / shape.sectors).Nodup ∧
      ((∀ t, s.pc t = .done) -> s.mapped = s.issued) ∧ ∀ t, ∃ s', advance s t = .ok s' := by
  have orderly := run.invariant (Orderly shape) (start_orderly shape disk frames)
    fun _ _ orderly step => step_orderly (Shape.sectors_pos small) orderly step
  refine ⟨orderly.complete, ?_, orderly.split, orderly.pages, ?_, fun t => ?_⟩
  · intro page frame found i
    obtain ⟨f, member, rfl, rfl⟩ := (orderly.present page frame).mp found
    have issued : f ∈ s.issued := orderly.split ▸ mem_append_left _ member
    rw [orderly.loaded f issued (orderly.complete f member), (orderly.record f issued).2.2]
  · intro all
    have split := orderly.split
    rw [orderly.ends all, append_nil] at split
    exact split.symm
  · obtain ⟨s', returns, -⟩ := (orderly.advance (Shape.sectors_pos small) t).returns fun _ => id
    exact ⟨s', returns⟩

section decidable

variable [Fintype T]

instance (pc : Pc) : Decidable pc.Syncing :=
  match pc with
  | .wait _ _ _ | .finish _ _ => .isTrue trivial
  | .done | .loop _ _ | .retry _ _ | .sync _ | .call _ _ => .isFalse id

instance (s : Threads S T) (e : Event T) : Decidable (Enabled s e) :=
  match e with
  | .start t _ _ => inferInstanceAs (Decidable (s.pc t = .done))
  | .complete f => inferInstanceAs (Decidable (f ∈ s.host.reads))
  | .advance t =>
    match pc : s.pc t with
    | .done => .isFalse fun enabled => enabled.1 pc
    | .wait _ before _ =>
      if all : ∀ f ∈ before, f ∉ s.host.reads then .isTrue
        ⟨by simp [pc], by rintro _ _ _ at'; cases pc.symm.trans at'; exact all⟩
      else .isFalse fun enabled => all (enabled.2 _ _ _ pc)
    | .loop _ _ | .retry _ _ | .sync _ | .call _ _ | .finish _ _ => .isTrue (by simp [Enabled, pc])

instance (s : Threads S T) (e : Event T) : Decidable (Undisturbed s e) :=
  match e with
  | .start _ _ _ | .complete _ => .isTrue trivial
  | .advance t =>
    inferInstanceAs (Decidable (∀ lba ∈ issuing s t, (∀ t', ¬ (s.pc t').Syncing) ∧ _ ∧ _))

end decidable

def sampleThreads : Threads Nat Bool := startThreads sampleShape id fun _ _ => 0

theorem quiet_fetches_mapped_once_both :
    ∃ s : Threads Nat Bool, Relation.ReflTransGen QuietStep sampleThreads s ∧ s.issued.length = 2 ∧
      s.mapped = s.issued ∧ s.host.reads = [] := by
  have steps : ReflTransGen QuietStep _ _ :=
    .of_guarded (fun s e => Enabled s e ∧ Undisturbed s e) perform .notLocked
    sampleThreads [.start true 0 1, .advance true, .start false 8 1, .advance false, .advance true, .advance true,
      .advance true, .complete ⟨8, 1, 0⟩, .complete ⟨0, 0, 0⟩, .advance true, .advance false, .advance false,
      .advance true, .advance false, .advance false, .advance false] (fun _ e _ both returns =>
        ⟨e, both.1, both.2, returns⟩) rfl
  obtain ⟨-, -, -, -, ends, -⟩ := quiet_fetches_mapped_once (by decide) id (fun _ _ => 0) steps
  exact ⟨_, steps, rfl, ends (by decide), rfl⟩

theorem page_mapped_before_read :
    ∃ s : Threads Nat Bool, Relation.ReflTransGen ThreadStep sampleThreads s ∧
      ⟨8, 1, 0⟩ ∈ s.mapped ∧ ⟨8, 1, 0⟩ ∈ s.host.reads ∧
      s.host.cache.mapped 1 = some 1 ∧ s.host.frames 1 2 = 0 ∧ s.host.disk 10 = 10 := by
  have steps : ReflTransGen ThreadStep _ _ := .of_guarded Enabled perform .notLocked sampleThreads
    [.start true 0 1, .advance true, .advance true, .advance true, .advance true, .start false 8 1, .advance false,
      .complete ⟨0, 0, 0⟩, .advance true, .advance true] (fun _ e _ enabled returns => ⟨e, enabled, returns⟩) rfl
  exact ⟨_, steps, by decide, by decide, rfl, rfl, rfl⟩

end Bincows.BlockCache
