import Mathlib.Data.List.TakeWhile
import Bincows.Drivers.BlockCache
import Bincows.Shared.Tables

set_option autoImplicit false

namespace Bincows.BlockCache

open Blocks Function List

variable {S : Type}

structure Shape where
  lbashift : Nat
  capacity : Nat
  virtSize : Nat
  deriving DecidableEq

def Shape.sectors (shape : Shape) : Nat := 0x1000 >>> shape.lbashift

def BlockPageCache.shape (cache : BlockPageCache) : Shape :=
  ⟨cache.lbashift, cache.capacity, cache.virtSize⟩

theorem BlockPageCache.sectorsPerPage_eq (cache : BlockPageCache) :
    cache.sectorsPerPage = cache.shape.sectors := rfl

section pages

variable {p lba count : Nat}

theorem sectorsInIteration_spec (lba : Nat) (positive : 0 < p) (some : 0 < count) :
    0 < sectorsInIteration lba count p ∧ sectorsInIteration lba count p ≤ count ∧
      lba % p + sectorsInIteration lba count p ≤ p ∧
      (sectorsInIteration lba count p < count -> (lba + sectorsInIteration lba count p) % p = 0) := by
  have offset := Nat.mod_lt lba positive
  rw [sectorsInIteration]
  split
  case isTrue more =>
    refine ⟨by omega, more.le, by omega, fun _ => ?_⟩
    have split : lba + (p - lba % p) = p * (lba / p) + p := by
      have division := Nat.div_add_mod lba p
      omega
    rw [split, Nat.add_mod_right, Nat.mul_mod_right]
  case isFalse all => exact ⟨some, le_rfl, by omega, fun less => absurd less (lt_irrefl _)⟩

theorem eachPage_spec {T : Type} {body : T -> Nat -> Nat -> Except Fault T} (positive : 0 < p)
    (inv : Nat -> Nat -> T -> Prop) (round : ∀ lba count t, 0 < count -> inv lba count t ->
      (body t lba (sectorsInIteration lba count p)).Returns
        (inv (lba + sectorsInIteration lba count p) (count - sectorsInIteration lba count p)))
    (fuel : Nat) {t : T} (enough : count ≤ fuel) (start : inv lba count t) :
    (eachPage p body fuel lba count t).Returns (inv (lba + count) 0) := by
  induction fuel generalizing lba count t with
  | zero =>
    have none : count = 0 := by omega
    subst none
    exact start
  | succ fuel ih =>
    rw [eachPage]
    split
    case isTrue none =>
      subst none
      exact start
    case isFalse some =>
      have positiveCount : 0 < count := by omega
      obtain ⟨taken, bound, -⟩ := sectorsInIteration_spec lba positive positiveCount
      refine (round lba count t positiveCount start).bind fun t' next => ?_
      have enough : count - sectorsInIteration lba count p ≤ fuel := by omega
      have rest := ih enough next
      rwa [Nat.add_assoc, Nat.add_sub_cancel' bound] at rest

theorem page_offset (positive : 0 < p) (i : Nat) (inside : lba % p + i < p) :
    (lba + i) / p = lba / p ∧ lba / p * p + (lba % p + i) = lba + i := by
  have division := Nat.div_add_mod lba p
  have swapped := Nat.mul_comm p (lba / p)
  constructor
  · have split : lba + i = lba % p + i + p * (lba / p) := by omega
    rw [split, Nat.add_mul_div_left _ _ positive, Nat.div_eq_of_lt inside, Nat.zero_add]
  · omega

end pages

structure Pending (p : Nat) (view : Nat -> S) (h : Host S) (f : PageFetch) : Prop where
  first : f.pfId = 0
  frame : f.paddr < h.nextFrame
  aligned : f.lba / p * p = f.lba
  page : h.cache.mapped (f.lba / p) = none
  own : ∀ page, h.cache.mapped page ≠ some f.paddr
  agree : ∀ i < p, h.disk (f.lba + i) = view (f.lba + i)

structure Coherent (shape : Shape) (view : Nat -> S) (h : Host S) : Prop where
  fixed : h.cache.shape = shape
  frame : ∀ page frame, h.cache.mapped page = some frame -> frame < h.nextFrame
  apart : ∀ page page' frame, h.cache.mapped page = some frame ->
    h.cache.mapped page' = some frame -> page = page'
  content : ∀ page frame, h.cache.mapped page = some frame ->
    ∀ i < shape.sectors, h.frames frame i = view (page * shape.sectors + i)
  reads : h.reads = h.cache.pageFetches
  pending : ∀ f ∈ h.cache.pageFetches, Pending shape.sectors view h f
  pages : (h.cache.pageFetches.map fun f => f.lba / shape.sectors).Nodup
  frames : (h.cache.pageFetches.map PageFetch.paddr).Nodup

variable {buf : List S} {count : Nat}

section coherent

variable {shape : Shape} {view : Nat -> S} {h h' : Host S} {pid lba : Nat} {f : PageFetch}

theorem lockCache_free (free : h.cache.locked = none) :
    lockCache pid h = .ok { h with cache := { h.cache with locked := some pid } } := by
  rw [lockCache, free]

theorem mapFetches_ok (cache : BlockPageCache) (fs : List PageFetch)
    (unmapped : ∀ f ∈ fs, cache.mapped (f.lba / cache.sectorsPerPage) = none)
    (nodup : (fs.map fun f => f.lba / cache.sectorsPerPage).Nodup) :
    fs.foldlM mapFetch cache = .ok { cache with
      mapped := fs.foldl (fun mapped f => update mapped (f.lba / cache.sectorsPerPage) (some f.paddr)) cache.mapped } := by
  induction fs generalizing cache with
  | nil => rfl
  | cons f fs ih =>
    obtain ⟨fresh, nodup⟩ := nodup_cons.mp nodup
    have first : mapFetch cache f = .ok { cache with
        mapped := update cache.mapped (f.lba / cache.sectorsPerPage) (some f.paddr) } := by
      rw [mapFetch, BlockPageCache.page, unmapped f mem_cons_self]
    have others : ∀ g ∈ fs, g.lba / cache.sectorsPerPage ≠ f.lba / cache.sectorsPerPage :=
      fun g member same => fresh (mem_map.mpr ⟨g, member, same⟩)
    rw [foldlM_cons, first]
    refine ih _ (fun g member => ?_) nodup
    show update cache.mapped (f.lba / cache.sectorsPerPage) (some f.paddr) (g.lba / cache.sectorsPerPage) = none
    rw [update_of_ne (others g member)]
    exact unmapped g (mem_cons_of_mem _ member)

def settle (h : Host S) : Host S :=
  { h with
    cache := { h.cache with
      mapped := h.cache.pageFetches.foldl (fun mapped f => update mapped (h.cache.page f.lba) (some f.paddr)) h.cache.mapped
      pageFetches := []
      locked := none }
    frames := h.reads.foldl (load h.disk) h.frames
    reads := [] }

theorem Shape.sectors_pos (small : shape.lbashift < 12) : 0 < shape.sectors := by
  rw [Shape.sectors, Nat.shiftRight_eq_div_pow]
  refine Nat.div_pos ?_ (Nat.two_pow_pos _)
  exact (Nat.pow_le_pow_right (by decide) small.le : 2 ^ shape.lbashift ≤ 2 ^ 12)

theorem writeBlocks_page (positive : 0 < shape.sectors) (aligned : lba % shape.sectors = 0)
    (whole : buf.length = shape.sectors) (other : Nat -> S) :
    writeBlocks (fun n => if n / shape.sectors = lba / shape.sectors then other n else view n) lba buf =
      writeBlocks view lba buf := by
  have start := Nat.div_add_mod lba shape.sectors
  funext n
  by_cases inside : lba ≤ n ∧ n < lba + buf.length
  · have there : n - lba < buf.length := by omega
    rw [writeBlocks, writeBlocks, if_pos inside.1, if_pos inside.1, List.getElem?_eq_getElem there]
    rfl
  rw [writeBlocks_outside (by omega), writeBlocks_outside (by omega), if_neg]
  intro same
  have division := Nat.div_add_mod n shape.sectors
  have offset := Nat.mod_lt n positive
  rw [same] at division
  omega

def Aligned (shape : Shape) (lba : Nat) (buf : List S) : Prop :=
  buf ≠ [] ∧
    (lba % shape.sectors + buf.length ≤ shape.sectors ∨ (lba + buf.length) % shape.sectors = 0)

theorem later_whole {p cur left taken : Nat} (total : cur + left = lba + count) (begun : lba < cur)
    (start : cur % p = 0)
    (positive : 0 < taken) (bound : taken ≤ left) (more : taken < left -> (cur + taken) % p = 0)
    (aligned : lba % p + count ≤ p ∨ (lba + count) % p = 0) : p ≤ taken := by
  by_contra part
  have small : taken < p := by omega
  have offset : (cur + taken) % p = taken := by
    rw [Nat.add_mod, start, Nat.zero_add, Nat.mod_mod, Nat.mod_eq_of_lt small]
  rcases aligned with single | ends
  · -- the next page is beyond the end
    have same : cur = lba + (cur - lba) := by omega
    have inside : lba % p + (cur - lba) < p := by omega
    rw [same, Nat.add_mod, Nat.mod_eq_of_lt (show cur - lba < p by omega), Nat.mod_eq_of_lt inside] at start
    omega
  rcases Nat.lt_or_eq_of_le bound with less | all
  · omega
  · rw [← total, ← all] at ends
    omega

variable (coherent : Coherent shape view h)
include coherent

theorem Coherent.shift : h.cache.lbashift = shape.lbashift := congrArg Shape.lbashift coherent.fixed

theorem Coherent.sectors : h.cache.sectorsPerPage = shape.sectors := by
  rw [BlockPageCache.sectorsPerPage_eq, coherent.fixed]

theorem Coherent.page (lba : Nat) : h.cache.page lba = lba / shape.sectors := by
  rw [BlockPageCache.page, coherent.sectors]

theorem Coherent.relock (locked : Option Nat) :
    Coherent shape view { h with cache := { h.cache with locked } } :=
  { coherent with
    fixed := coherent.fixed
    pending := fun f member => { coherent.pending f member with } }

theorem Coherent.unlock : Coherent shape view (unlockCache h) := coherent.relock none

theorem targetSync_eq (free : h.cache.locked = none) : targetSync pid h = .ok (settle h) := by
  cases last : h.cache.pageFetches.getLast? with
  | none =>
    have empty := List.getLast?_eq_none_iff.mp last
    have unread : h.reads = [] := coherent.reads.trans empty
    have settled : settle h = unlockCache h := by simp only [settle, unlockCache, empty, unread, foldl_nil]
    rw [settled]
    simp only [targetSync, lockCache_free free, bind, Except.bind, last]
    rfl
  | some f =>
    have ready : h.cache.pageFetches.takeWhile (fun g => g.pfId ≤ f.pfId) = h.cache.pageFetches := by
      refine takeWhile_eq_self_iff.mpr fun g member => ?_
      rw [(coherent.pending g member).first, decide_eq_true (Nat.zero_le _)]
    have maps := mapFetches_ok { h.cache with locked := some pid } h.cache.pageFetches
      (fun g member => by
        show h.cache.mapped (g.lba / h.cache.sectorsPerPage) = none
        rw [coherent.sectors]
        exact (coherent.pending g member).page)
      (by
        show (h.cache.pageFetches.map fun g => g.lba / h.cache.sectorsPerPage).Nodup
        rw [coherent.sectors]
        exact coherent.pages)
    simp only [targetSync, lockCache_free free, bind, Except.bind, last]
    simp only [unlockCache, deviceSync, lockCache, mapFetched, ready, maps, bind, Except.bind, drop_length]
    rfl

theorem settle_mapped (member : f ∈ h.cache.pageFetches) :
    (settle h).cache.mapped (f.lba / shape.sectors) = some f.paddr := by
  have nodup : (h.cache.pageFetches.map fun f => h.cache.page f.lba).Nodup := by
    simp only [coherent.page]
    exact coherent.pages
  rw [← coherent.page]
  exact Tables.foldl_update_mem nodup member

theorem settle_unmapped {page : Nat}
    (other : ∀ f ∈ h.cache.pageFetches, f.lba / shape.sectors ≠ page) :
    (settle h).cache.mapped page = h.cache.mapped page := by
  refine Tables.foldl_update_other fun f member => ?_
  rw [coherent.page]
  exact other f member

theorem settle_mapped_cases {page frame : Nat} (found : (settle h).cache.mapped page = some frame) :
    (∃ f ∈ h.cache.pageFetches, f.lba / shape.sectors = page ∧ f.paddr = frame) ∨ h.cache.mapped page = some frame := by
  by_cases fetched : ∃ f ∈ h.cache.pageFetches, f.lba / shape.sectors = page
  · obtain ⟨f, member, rfl⟩ := fetched
    rw [settle_mapped coherent member] at found
    exact .inl ⟨f, member, rfl, Option.some.inj found⟩
  · rw [settle_unmapped coherent fun f member same => fetched ⟨f, member, same⟩] at found
    exact .inr found

theorem settle_frame (member : f ∈ h.cache.pageFetches) :
    (settle h).frames f.paddr = fun i => h.disk (f.lba + i) := by
  show h.reads.foldl (load h.disk) h.frames f.paddr = _
  rw [coherent.reads]
  exact Tables.foldl_update_mem coherent.frames member

theorem settle_other_frame {frame : Nat}
    (other : ∀ f ∈ h.cache.pageFetches, f.paddr ≠ frame) : (settle h).frames frame = h.frames frame := by
  show h.reads.foldl (load h.disk) h.frames frame = _
  rw [coherent.reads]
  exact Tables.foldl_update_other other

theorem settle_coherent : Coherent shape view (settle h) := by
  constructor
  · exact coherent.fixed
  · intro page frame found
    rcases settle_mapped_cases coherent found with ⟨f, member, -, rfl⟩ | old
    · exact (coherent.pending f member).frame
    · exact coherent.frame page frame old
  · intro page page' frame found found'
    rcases settle_mapped_cases coherent found with ⟨f, member, rfl, rfl⟩ | old
    · rcases settle_mapped_cases coherent found' with ⟨g, member', rfl, same⟩ | old'
      · rw [inj_on_of_nodup_map coherent.frames member' member same]
      · exact absurd old' ((coherent.pending f member).own page')
    · rcases settle_mapped_cases coherent found' with ⟨g, member', rfl, rfl⟩ | old'
      · exact absurd old ((coherent.pending g member').own page)
      · exact coherent.apart page page' frame old old'
  · intro page frame found i inside
    rcases settle_mapped_cases coherent found with ⟨f, member, rfl, rfl⟩ | old
    · rw [settle_frame coherent member, (coherent.pending f member).aligned]
      exact (coherent.pending f member).agree i inside
    · rw [settle_other_frame coherent fun f member same => (coherent.pending f member).own page (same ▸ old)]
      exact coherent.content page frame old i inside
  · rfl
  · nofun
  · exact .nil
  · exact .nil

theorem not_fetching (fetching : isFetching h.cache lba = false) : ∀ f ∈ h.cache.pageFetches,
    f.lba / shape.sectors ≠ lba / shape.sectors := by
  intro f member same
  have recorded := any_eq_false.mp fetching f member
  rw [BlockPageCache.pageBegin, coherent.page, coherent.sectors, beq_iff_eq, ← same,
    (coherent.pending f member).aligned] at recorded
  exact recorded rfl

theorem issueFetch_coherent (positive : 0 < shape.sectors) (agree : view = h.disk)
    (unmapped : h.cache.mapped (lba / shape.sectors) = none) (fetching : isFetching h.cache lba = false) :
    Coherent shape view (issueFetch h lba) := by
  have begin : h.cache.pageBegin lba = lba / shape.sectors * shape.sectors := by
    rw [BlockPageCache.pageBegin, coherent.page, coherent.sectors]
  have page : h.cache.pageBegin lba / shape.sectors = lba / shape.sectors := by
    rw [begin, Nat.mul_div_cancel _ positive]
  constructor
  · exact coherent.fixed
  · exact fun page frame found => (coherent.frame page frame found).trans (Nat.lt_succ_self _)
  · exact coherent.apart
  · exact coherent.content
  · show h.reads ++ [_] = h.cache.pageFetches ++ [_]
    rw [coherent.reads]
  · refine forall_mem_concat (fun f old => ?_) ⟨rfl, Nat.lt_succ_self _, ?_, ?_, ?_, fun _ _ => congrFun agree.symm _⟩
    · exact { coherent.pending f old with frame := (coherent.pending f old).frame.trans (Nat.lt_succ_self _) }
    · rw [page, begin]
    · rw [page]
      exact unmapped
    · exact fun page found => absurd (coherent.frame page _ found) (lt_irrefl _)
  · exact coherent.pages.map_concat fun f member => page.symm ▸ not_fetching coherent fetching f member
  · exact coherent.frames.map_concat fun f member => (coherent.pending f member).frame.ne

def resynced (pid : Nat) (h : Host S) : Host S :=
  { settle (unlockCache h) with cache := { (settle (unlockCache h)).cache with locked := some pid } }

theorem resynced_coherent : Coherent shape view (resynced pid h) :=
  (settle_coherent coherent.unlock).relock (some pid)

theorem fetchPage_spec (small : shape.lbashift < 12) (agree : view = h.disk)
    (locked : h.cache.locked = some pid) (unmapped : h.cache.mapped (lba / shape.sectors) = none) :
    (fetchPage pid h lba).Returns fun h' => Coherent shape view h' ∧ h'.cache.locked = some pid ∧ h'.disk = h.disk ∧
      ∃ f ∈ h'.cache.pageFetches, f.lba / shape.sectors = lba / shape.sectors := by
  have positive := Shape.sectors_pos small
  have shift := coherent.shift
  have begin : ∀ g : Host S, Coherent shape view g -> g.cache.pageBegin lba / shape.sectors = lba / shape.sectors := by
    intro g coherent
    rw [BlockPageCache.pageBegin, coherent.page, coherent.sectors, Nat.mul_div_cancel _ positive]
  rw [fetchPage, if_neg (not_not_intro locked), if_neg (by omega)]
  split
  case isTrue fetching =>
    obtain ⟨f, member, same⟩ := any_eq_true.mp fetching
    refine ⟨coherent, locked, rfl, f, member, ?_⟩
    rw [beq_iff_eq.mp same]
    exact begin h coherent
  case isFalse notFetching =>
    have fetching : isFetching h.cache lba = false := Bool.not_eq_true _ ▸ notFetching
    by_cases full : maxPageFetches ≤ h.cache.pageFetches.length
    · -- the recorded fetches are mapped first
      have settled : Coherent shape view (resynced pid h) := resynced_coherent coherent
      have still : (resynced pid h).cache.mapped (lba / shape.sectors) = none :=
        (settle_unmapped coherent.unlock (not_fetching coherent.unlock fetching)).trans unmapped
      rw [if_pos full, targetSync_eq coherent.unlock rfl]
      exact ⟨issueFetch_coherent settled positive agree still rfl, rfl, rfl, _, mem_concat_self, begin _ settled⟩
    · rw [if_neg full]
      show Except.Returns (if maxPageFetches ≤ h.cache.pageFetches.length then _ else _) _
      rw [if_neg full]
      exact ⟨issueFetch_coherent coherent positive agree unmapped fetching, locked, rfl, _, mem_concat_self, begin h coherent⟩

theorem present_iff : checkPresentPage h.cache lba = true ↔
    h.cache.mapped (lba / shape.sectors) ≠ none := by
  rw [checkPresentPage, coherent.page, Option.isSome_iff_ne_none]

theorem blockingReadCache_spec (lba : Nat) (small : shape.lbashift < 12) (agree : view = h.disk)
    (locked : h.cache.locked = some pid) (none : h.cache.pageFetches = []) :
    (blockingReadCache pid h lba).Returns fun h' => Coherent shape view h' ∧ h'.cache.locked = some pid ∧
      h'.cache.pageFetches = [] ∧ h'.disk = h.disk ∧ h'.cache.mapped (lba / shape.sectors) ≠ Option.none := by
  rw [blockingReadCache, if_neg (not_not_intro locked)]
  split
  case isTrue present => exact ⟨coherent, locked, none, rfl, (present_iff coherent).mp present⟩
  case isFalse absent =>
    have unmapped : h.cache.mapped (lba / shape.sectors) = Option.none := by
      by_contra mapped
      exact absent ((present_iff coherent).mpr mapped)
    have fetching : isFetching h.cache lba = false := by rw [isFetching, none, any_nil]
    rw [fetching]
    refine (fetchPage_spec coherent small agree locked unmapped).bind ?_
    rintro h' ⟨coherent', -, disk, f, member, page⟩
    dsimp only
    rw [targetSync_eq coherent'.unlock rfl]
    refine ⟨resynced_coherent coherent', rfl, rfl, disk, ?_⟩
    rw [← page]
    exact ne_of_eq_of_ne (settle_mapped coherent'.unlock member) (Option.some_ne_none _)

theorem copyOut_spec (positive : 0 < shape.sectors)
    (mapped : h.cache.mapped (lba / shape.sectors) ≠ none) (inside : lba % shape.sectors + count ≤ shape.sectors) :
    copyOut h lba count = .ok (readBlocks view lba count) := by
  obtain ⟨frame, found⟩ := Option.ne_none_iff_exists'.mp mapped
  rw [copyOut, coherent.page, found, coherent.sectors]
  refine congrArg Except.ok (readBlocks_congr fun k small => ?_)
  rw [coherent.content _ frame found _ (by omega), (page_offset positive k (by omega)).2]

theorem checkSector_ok (inside : lba < shape.capacity)
    (space : shape.capacity <<< shape.lbashift ≤ shape.virtSize) : checkSector h.cache lba = .ok () := by
  have shift := coherent.shift
  have capacity : h.cache.capacity = shape.capacity := congrArg Shape.capacity coherent.fixed
  have virtSize : h.cache.virtSize = shape.virtSize := congrArg Shape.virtSize coherent.fixed
  have below : lba <<< shape.lbashift < shape.capacity <<< shape.lbashift := by
    rw [Nat.shiftLeft_eq, Nat.shiftLeft_eq]
    exact Nat.mul_lt_mul_of_pos_right inside (Nat.two_pow_pos _)
  rw [checkSector, shift, capacity, virtSize, if_neg (by omega), if_neg (by omega)]

theorem allocPage_coherent (positive : 0 < shape.sectors) (none : h.cache.pageFetches = []) :
    Coherent shape (fun n => if n / shape.sectors = lba / shape.sectors then h.frames h.nextFrame
      (n % shape.sectors) else view n)
      (allocPage h lba) := by
  have cases : ∀ page frame, (allocPage h lba).cache.mapped page = some frame ->
      (page = lba / shape.sectors ∧ frame = h.nextFrame) ∨
        (page ≠ lba / shape.sectors ∧ h.cache.mapped page = some frame) := by
    intro page frame found
    rcases update_eq.mp found with ⟨same, new⟩ | before
    · exact .inl ⟨coherent.page lba ▸ same, (Option.some.inj new).symm⟩
    · exact .inr (coherent.page lba ▸ before)
  constructor
  · exact coherent.fixed
  · intro page frame found
    rcases cases page frame found with ⟨-, rfl⟩ | ⟨-, old⟩
    · exact Nat.lt_succ_self _
    · exact (coherent.frame page frame old).trans (Nat.lt_succ_self _)
  · intro page page' frame found found'
    rcases cases page frame found with ⟨rfl, rfl⟩ | ⟨-, old⟩
    · rcases cases page' _ found' with ⟨rfl, -⟩ | ⟨-, old'⟩
      · rfl
      · exact absurd (coherent.frame page' _ old') (lt_irrefl _)
    · rcases cases page' frame found' with ⟨-, rfl⟩ | ⟨-, old'⟩
      · exact absurd (coherent.frame page _ old) (lt_irrefl _)
      · exact coherent.apart page page' frame old old'
  · intro page frame found i inside
    have place : (page * shape.sectors + i) / shape.sectors = page ∧ (page * shape.sectors + i) % shape.sectors = i := by
      rw [Nat.mul_comm, Nat.mul_add_div positive, Nat.mul_add_mod, Nat.div_eq_of_lt inside, Nat.mod_eq_of_lt inside]
      exact ⟨rfl, rfl⟩
    rw [place.1, place.2]
    rcases cases page frame found with ⟨rfl, rfl⟩ | ⟨other, old⟩
    · rw [if_pos rfl]
      rfl
    · rw [if_neg other]
      exact coherent.content page frame old i inside
  · exact coherent.reads
  · exact fun f member => (not_mem_nil (none ▸ member)).elim
  · exact coherent.pages
  · exact coherent.frames

theorem copyIn_spec (none : h.cache.pageFetches = [])
    (mapped : h.cache.mapped (lba / shape.sectors) ≠ Option.none)
    (inside : lba % shape.sectors + buf.length ≤ shape.sectors) :
    ∃ h', copyIn h lba buf = .ok h' ∧ Coherent shape (writeBlocks view lba buf) h' ∧
      h'.disk = h.disk ∧ h'.cache = h.cache := by
  obtain ⟨frame, found⟩ := Option.ne_none_iff_exists'.mp mapped
  refine ⟨{ h with frames := update h.frames frame (writeBlocks (h.frames frame) (lba % shape.sectors) buf) },
    ?_, ?_, rfl, rfl⟩
  · rw [copyIn, coherent.page, found, coherent.sectors]
  have division := Nat.div_add_mod lba shape.sectors
  have swapped := Nat.mul_comm shape.sectors (lba / shape.sectors)
  refine { coherent with pending := ?_, content := ?_ }
  · intro page other there i small
    show update h.frames frame _ other i = _
    by_cases same : other = frame
    · subst same
      have samePage := coherent.apart _ _ _ there found
      subst samePage
      rw [update_self, writeBlocks, writeBlocks, coherent.content _ _ found i small]
      by_cases above : lba % shape.sectors ≤ i
      · have index : lba / shape.sectors * shape.sectors + i - lba = i - lba % shape.sectors := by omega
        rw [if_pos above, if_pos (by omega), index]
      · rw [if_neg above, if_neg (by omega)]
    · rw [update_of_ne same, coherent.content page other there i small]
      -- the sectors of another page are not written
      have apart : page ≠ lba / shape.sectors := by
        rintro rfl
        exact same (Option.some.inj (there.symm.trans found))
      refine (writeBlocks_outside ?_).symm
      rcases Nat.lt_or_gt_of_ne apart with before | behind
      · have steps : (page + 1) * shape.sectors ≤ lba / shape.sectors * shape.sectors := Nat.mul_le_mul_right _ before
        rw [Nat.add_mul, Nat.one_mul] at steps
        exact .inl (by omega)
      · have steps : (lba / shape.sectors + 1) * shape.sectors ≤ page * shape.sectors := Nat.mul_le_mul_right _ behind
        rw [Nat.add_mul, Nat.one_mul] at steps
        exact .inr (by omega)
  · exact fun f member => (not_mem_nil (none ▸ member)).elim

theorem preparePage_spec (small : shape.lbashift < 12) (none : h.cache.pageFetches = [])
    (inside : lba % shape.sectors + buf.length ≤ shape.sectors)
    (part : buf.length < shape.sectors -> h.cache.locked = some pid ∧ view = h.disk) :
    ∃ h' view', preparePage pid h lba buf.length = .ok h' ∧ Coherent shape view' h' ∧ h'.disk = h.disk ∧
      h'.cache.pageFetches = [] ∧ h'.cache.mapped (lba / shape.sectors) ≠ Option.none ∧
      writeBlocks view' lba buf = writeBlocks view lba buf := by
  have positive := Shape.sectors_pos small
  rw [preparePage, coherent.sectors]
  split
  case isTrue isPart =>
    obtain ⟨locked, rfl⟩ := part isPart
    obtain ⟨h', returns, coherent', -, none', disk, mapped⟩ :=
      (blockingReadCache_spec coherent lba small rfl locked none).returns fun _ => id
    exact ⟨h', _, returns, coherent', disk, none', mapped, rfl⟩
  case isFalse notPart =>
    split
    case isTrue present => exact ⟨h, _, rfl, coherent, rfl, none, (present_iff coherent).mp present, rfl⟩
    case isFalse absent =>
      refine ⟨allocPage h lba, _, rfl, allocPage_coherent coherent positive none, rfl, none, ?_, ?_⟩
      · show update h.cache.mapped (h.cache.page lba) (some h.nextFrame) (lba / shape.sectors) ≠ Option.none
        rw [coherent.page, update_self]
        exact Option.some_ne_none _
      · exact writeBlocks_page positive (by omega) (by omega) fun n => h.frames h.nextFrame (n % shape.sectors)

end coherent

structure Ready (shape : Shape) (h : Host S) : Prop where
  coherent : Coherent shape h.disk h
  free : h.cache.locked = none
  none : h.cache.pageFetches = []

inductive Request (S : Type) where
  | read (lba count : Nat)
  | write (lba : Nat) (buf : List S)

def serve (pid : Nat) (h : Host S) : Request S -> Except Fault (Host S × List S)
  | .read lba count => blockCacheAsyncRead pid h lba count
  | .write lba buf => do
    let h ← blockCacheWrite pid h lba buf
    .ok (h, [])

def serveAll (pid : Nat) : Host S -> List (Request S) -> Except Fault (Host S × List (List S))
  | h, [] => .ok (h, [])
  | h, request :: rest => do
    let (h, out) ← serve pid h request
    let (h, outs) ← serveAll pid h rest
    .ok (h, out :: outs)

def rawServe (disk : Nat -> S) : Request S -> (Nat -> S) × List S
  | .read lba count => (disk, Blocks.readBlocks disk lba count)
  | .write lba buf => (Blocks.writeBlocks disk lba buf, [])

def rawAll : (Nat -> S) -> List (Request S) -> (Nat -> S) × List (List S)
  | disk, [] => (disk, [])
  | disk, request :: rest =>
    let (disk, out) := rawServe disk request
    let (disk, outs) := rawAll disk rest
    (disk, out :: outs)

/-- The mask of `fetch_page` is 32 bits wide, a fetch reads a whole page, and the driver below
asserts that what it transfers ends before the last sector of the device. -/
def Inside (shape : Shape) (lba count : Nat) : Prop :=
  shape.capacity < 2 ^ 32 ∧
    (lba + count + shape.sectors - 1) / shape.sectors * shape.sectors < shape.capacity

theorem Inside.end_le {shape : Shape} (small : shape.lbashift < 12) {lba count : Nat}
    (inside : Inside shape lba count) : lba + count ≤ shape.capacity := by
  have positive := Shape.sectors_pos small
  have parts := Nat.div_add_mod' (lba + count + shape.sectors - 1) shape.sectors
  have rest := Nat.mod_lt (lba + count + shape.sectors - 1) positive
  have below := inside.2
  omega

def Served (shape : Shape) : Request S -> Prop
  | .read lba count => Inside shape lba count
  | .write lba buf => Inside shape lba buf.length ∧ Aligned shape lba buf

def blockCacheSetup (shape : Shape) (disk : Nat -> S) (frames : Nat -> Nat -> S) : Host S :=
  { cache :=
      { lbashift := shape.lbashift
        capacity := shape.capacity
        virtSize := shape.virtSize
        mapped := fun _ => none
        pageFetches := []
        locked := none }
    disk
    reads := []
    frames
    nextFrame := 0 }

theorem blockCacheSetup_ready (shape : Shape) (disk : Nat -> S) (frames : Nat -> Nat -> S) :
    Ready shape (blockCacheSetup shape disk frames) := by
  exact ⟨⟨rfl, nofun, nofun, nofun, rfl, nofun, .nil, .nil⟩, rfl, rfl⟩

section requests

variable {shape : Shape} {h : Host S} {pid lba : Nat} (small : shape.lbashift < 12)
include small

theorem prefetchPage_spec (coherent : Coherent shape h.disk h) (free : h.cache.locked = none)
    (count : Nat) : (prefetchPage pid h lba count).Returns fun h' =>
      Coherent shape h.disk h' ∧ h'.disk = h.disk ∧ h'.cache.locked = none := by
  have taken : Coherent shape h.disk { h with cache := { h.cache with locked := some pid } } :=
    coherent.relock _
  rw [prefetchPage, lockCache_free free]
  simp only [bind, Except.bind]
  split
  case isTrue present => exact ⟨taken.relock none, rfl, rfl⟩
  case isFalse absent =>
    have unmapped : h.cache.mapped (lba / shape.sectors) = none := by
      by_contra mapped
      exact absent ((present_iff taken).mpr mapped)
    refine (fetchPage_spec taken small rfl rfl unmapped).bind ?_
    rintro h' ⟨coherent', -, disk, -⟩
    exact ⟨coherent'.unlock, disk, rfl⟩

theorem prefetch_spec (pid : Nat) (ready : Ready shape h) (lba count : Nat) :
    (prefetch pid h lba count).Returns fun h' => Ready shape h' ∧ h'.disk = h.disk := by
  have shift := ready.coherent.shift
  rw [prefetch, if_neg (by omega), ready.coherent.sectors]
  let inv (_ _ : Nat) (h' : Host S) : Prop :=
    Coherent shape h'.disk h' ∧ h'.disk = h.disk ∧ h'.cache.locked = none
  have loop : (eachPage shape.sectors (prefetchPage pid) count lba count h).Returns (inv (lba + count) 0) := by
    refine eachPage_spec (Shape.sectors_pos small) inv ?_ count le_rfl ⟨ready.coherent, rfl, ready.free⟩
    rintro lba count h' - ⟨coherent, disk, free⟩
    refine (prefetchPage_spec small coherent free _).mono (fun _ => id) ?_
    rintro next ⟨coherent', disk', free'⟩
    exact ⟨disk' ▸ coherent', disk'.trans disk, free'⟩
  refine loop.bind fun h' ⟨coherent, disk, free⟩ => ?_
  rw [targetSync_eq coherent free]
  exact ⟨⟨settle_coherent coherent, rfl, rfl⟩, disk⟩

variable (space : shape.capacity <<< shape.lbashift ≤ shape.virtSize)
include space

theorem read_spec (ready : Ready shape h) (inside : lba + count ≤ shape.capacity) :
    ∃ h', read pid h lba count = .ok (h', readBlocks h.disk lba count) ∧ Ready shape h' ∧ h'.disk = h.disk := by
  have positive := Shape.sectors_pos small
  obtain ⟨h₁, fetched, ready₁, disk₁⟩ :=
    (prefetch_spec small pid ready lba count).returns fun _ => id
  let inv (cur left : Nat) (t : Host S × List S) : Prop :=
    Coherent shape h.disk t.1 ∧ t.1.disk = h.disk ∧ t.1.cache.locked = some pid ∧ t.1.cache.pageFetches = [] ∧
      cur + left = lba + count ∧ lba ≤ cur ∧ t.2 = readBlocks h.disk lba (cur - lba)
  have locked : Coherent shape h.disk { h₁ with cache := { h₁.cache with locked := some pid } } :=
    (disk₁ ▸ ready₁.coherent).relock _
  have loop : (eachPage shape.sectors (readPage pid) count lba count
      ({ h₁ with cache := { h₁.cache with locked := some pid } }, [])).Returns (inv (lba + count) 0) := by
    refine eachPage_spec positive inv ?_ count le_rfl ⟨locked, disk₁, rfl, ready₁.none, rfl, le_rfl, ?_⟩
    · rintro cur left ⟨g, buf⟩ some ⟨coherent, disk, locked, none, total, reached, rfl⟩
      obtain ⟨-, bound, within, -⟩ := sectorsInIteration_spec cur positive some
      rw [readPage, checkSector_ok coherent (by omega) space]
      refine (blockingReadCache_spec coherent cur small disk.symm locked none).bind ?_
      rintro g' ⟨coherent', locked', none', disk', mapped⟩
      rw [copyOut_spec coherent' positive mapped within]
      refine ⟨coherent', disk'.trans disk, locked', none', by omega, by omega, ?_⟩
      have length : cur + sectorsInIteration cur left shape.sectors - lba =
          cur - lba + sectorsInIteration cur left shape.sectors := by omega
      rw [length, readBlocks_add, Nat.add_sub_cancel' reached]
    · rw [Nat.sub_self]
      rfl
  obtain ⟨⟨g, buf⟩, returns, coherent, disk, -, none, -, -, rfl⟩ := loop.returns fun _ => id
  refine ⟨unlockCache g, ?_, ⟨disk ▸ coherent.relock Option.none, rfl, none⟩, disk⟩
  have sectors : h₁.cache.sectorsPerPage = shape.sectors := ready₁.coherent.sectors
  simp only [read, fetched, lockCache_free ready₁.free, bind, Except.bind]
  rw [show BlockPageCache.sectorsPerPage { h₁.cache with locked := some pid } = shape.sectors from sectors, returns,
    Nat.add_sub_cancel_left]

theorem writeCache_spec (pid : Nat) (ready : Ready shape h)
    (inside : lba + buf.length ≤ shape.capacity) (aligned : Aligned shape lba buf) :
    ∃ h', writeCache pid h lba buf = .ok h' ∧ Coherent shape (writeBlocks h.disk lba buf) h' ∧
      h'.disk = h.disk ∧ h'.cache.locked = none ∧ h'.cache.pageFetches = [] := by
  have positive := Shape.sectors_pos small
  have shift := ready.coherent.shift
  let inv (cur left : Nat) (t : Host S × List S) : Prop :=
    Coherent shape (writeBlocks h.disk lba (buf.take (cur - lba))) t.1 ∧ t.1.disk = h.disk ∧ t.1.cache.pageFetches = [] ∧
      cur + left = lba + buf.length ∧ lba ≤ cur ∧ t.2 = buf.drop (cur - lba) ∧
      (cur = lba -> t.1.cache.locked = some pid) ∧
        (lba < cur -> t.1.cache.locked = none ∧ (0 < left -> cur % shape.sectors = 0))
  have loop : (eachPage shape.sectors (writePage pid) buf.length lba buf.length
      ({ h with cache := { h.cache with locked := some pid } }, buf)).Returns (inv (lba + buf.length) 0) := by
    refine eachPage_spec positive inv ?_ buf.length le_rfl ?_
    · rintro cur left ⟨g, rest⟩ some ⟨coherent, disk, none, total, reached, rfl, first, later⟩
      obtain ⟨taken, bound, within, more⟩ := sectorsInIteration_spec cur positive some
      generalize sectorsInIteration cur left shape.sectors = n at taken bound within more ⊢
      have chunk : ((buf.drop (cur - lba)).take n).length = n := by
        rw [length_take, length_drop]
        omega
      have part : ((buf.drop (cur - lba)).take n).length < shape.sectors ->
          g.cache.locked = Option.some pid ∧ writeBlocks h.disk lba (buf.take (cur - lba)) = g.disk := by
        intro isPart
        have begun : cur = lba := by
          by_contra other
          have start := (later (by omega)).2 some
          have whole := later_whole total (by omega) start taken bound more aligned.2
          omega
        refine ⟨first begun, ?_⟩
        rw [begun, Nat.sub_self, take_zero, writeBlocks_nil, disk]
      obtain ⟨g', view', returns, coherent', disk', none', mapped, written⟩ :=
        preparePage_spec coherent small none (by rw [chunk]; exact within) part
      rw [chunk] at returns
      obtain ⟨g'', copies, coherent'', disk'', cache⟩ := copyIn_spec coherent' none' mapped (by rw [chunk]; exact within)
      rw [writePage, checkSector_ok coherent (by omega) space]
      simp only [bind, Except.bind, returns, copies]
      have next : cur + n - lba = cur - lba + n := by omega
      refine ⟨?_, disk''.trans (disk'.trans disk),
        ?_, by omega, by omega, ?_, fun same => by omega, fun _ => ⟨rfl, fun left => more (by omega)⟩⟩
      · rw [written] at coherent''
        have position : cur = lba + (buf.take (cur - lba)).length := by
          rw [length_take]
          omega
        rw [next, take_add, ← writeBlocks_append, ← position]
        exact coherent''.relock Option.none
      · show g''.cache.pageFetches = []
        rw [cache]
        exact none'
      · rw [next, drop_drop]
    · refine ⟨?_, rfl, ready.none, rfl,
        le_rfl, by rw [Nat.sub_self, drop_zero], fun _ => rfl, fun less => absurd less (lt_irrefl _)⟩
      rw [Nat.sub_self, take_zero, writeBlocks_nil]
      exact ready.coherent.relock _
  obtain ⟨⟨g, rest⟩, returns, coherent, disk, none, -, -, -, -, free⟩ := loop.returns fun _ => id
  have some := length_pos_iff.mpr aligned.1
  rw [Nat.add_sub_cancel_left, take_length] at coherent
  refine ⟨g, ?_, coherent, disk, (free (by omega)).1, none⟩
  rw [writeCache, if_neg (by omega), lockCache_free ready.free]
  simp only [bind, Except.bind]
  rw [show BlockPageCache.sectorsPerPage
    { h.cache with locked := Option.some pid } = shape.sectors from ready.coherent.sectors,
    returns]

theorem write_spec (pid : Nat) (ready : Ready shape h) (inside : lba + buf.length ≤ shape.capacity)
    (aligned : Aligned shape lba buf) :
    ∃ h', blockCacheWrite pid h lba buf = .ok h' ∧ Ready shape h' ∧ h'.disk = writeBlocks h.disk lba buf := by
  obtain ⟨g, returns, coherent, disk, free, none⟩ :=
    writeCache_spec small space pid ready inside aligned
  have unread : g.reads = [] := coherent.reads.trans none
  have synced : deviceSync g = g := by
    rw [deviceSync, unread, foldl_nil, ← unread]
  refine ⟨{ g with disk := writeBlocks g.disk lba buf }, ?_, ⟨?_, free, none⟩, by rw [disk]⟩
  · simp only [blockCacheWrite, returns, bind, Except.bind, synced]
  · rw [← disk] at coherent
    exact { coherent with pending := fun f member => (not_mem_nil (none ▸ member)).elim }

theorem serve_spec (pid : Nat) (ready : Ready shape h) {request : Request S}
    (served : Served shape request) :
    ∃ h', serve pid h request = .ok (h', (rawServe h.disk request).2) ∧ Ready shape h' ∧
      h'.disk = (rawServe h.disk request).1 := by
  cases request with
  | read lba count => exact read_spec small space ready (served.end_le small)
  | write lba buf =>
    obtain ⟨h', returns, ready', disk⟩ := write_spec small space pid ready (served.1.end_le small) served.2
    refine ⟨h', ?_, ready', disk⟩
    rw [serve, returns]
    rfl

theorem serveAll_spec (pid : Nat) {requests : List (Request S)}
    (served : ∀ request ∈ requests, Served shape request) (ready : Ready shape h) :
    ∃ h', serveAll pid h requests = .ok (h', (rawAll h.disk requests).2) ∧ Ready shape h' ∧
      h'.disk = (rawAll h.disk requests).1 := by
  induction requests generalizing h with
  | nil => exact ⟨h, rfl, ready, rfl⟩
  | cons request rest ih =>
    obtain ⟨h₁, first, ready₁, disk₁⟩ := serve_spec small space pid ready (served request mem_cons_self)
    obtain ⟨h₂, later, ready₂, disk₂⟩ := ih (fun r member => served r (mem_cons_of_mem _ member)) ready₁
    rw [disk₁] at later disk₂
    refine ⟨h₂, ?_, ready₂, disk₂⟩
    rw [serveAll, first]
    simp only [bind, Except.bind, later]
    rfl

end requests

theorem cache_refines_device {shape : Shape} (pid : Nat) (small : shape.lbashift < 12)
    (space : shape.capacity <<< shape.lbashift ≤ shape.virtSize) (disk : Nat -> S) (frames : Nat -> Nat -> S)
    {requests : List (Request S)} (served : ∀ request ∈ requests, Served shape request) :
    ∃ h, serveAll pid (blockCacheSetup shape disk frames) requests = .ok (h,
      (rawAll disk requests).2) ∧ h.disk = (rawAll disk requests).1 ∧ h.cache.locked = none := by
  obtain ⟨h, returns, ready, contents⟩ :=
    serveAll_spec small space pid served (blockCacheSetup_ready shape disk frames)
  exact ⟨h, returns, contents, ready.free⟩

def sampleShape : Shape := ⟨9, 100, 2 ^ 39⟩

def sampleHost : Host Nat := blockCacheSetup sampleShape id fun _ _ => 0

theorem cache_refines_device_parts :
    ∃ h, serveAll 1 sampleHost [.write 2 [50, 51], .write 6 [60, 61, 62, 63, 64, 65, 66, 67, 68, 69], .read 1 7] =
        .ok (h, [[], [], [1, 50, 51, 4, 5, 60, 61]]) ∧ h.cache.locked = none := by
  have served : ∀ request ∈ [Request.write 2 [50, 51], .write 6 [60, 61, 62, 63, 64, 65, 66, 67, 68, 69], .read 1 7],
      Served sampleShape request := by
    simp [Served, Inside, Aligned, sampleShape, Shape.sectors]
  obtain ⟨h, returns, -, free⟩ :=
    cache_refines_device 1 (by decide) (by decide) id (fun _ _ => 0) served
  exact ⟨h, returns, free⟩

theorem write_loses_lock :
    (blockCacheWrite 1 sampleHost 0 []).map (fun h => h.cache.locked) = .ok (some 1) ∧
      (serveAll 1 sampleHost [.write 0 [], .read 0 1]).map Prod.snd = .error .relocked ∧
      (serveAll 1 sampleHost [.write 6 [60, 61, 62, 63]]).map Prod.snd = .error .notLocked := by
  exact ⟨rfl, rfl, rfl⟩

end Bincows.BlockCache
