import Bincows.Fs.FatCache
import Bincows.Fs.FatTable

set_option autoImplicit false

namespace Bincows.Fat32

open WriteBack Function

variable {g : Geometry} {c c' : CachedVolume} {v v' : Volume Sector} {lba cluster : Nat}

def InFat (g : Geometry) (lba : Nat) : Prop := g.fatBegin ≤ lba ∧ lba < g.fatBegin + g.fatSize

instance : Decidable (InFat g lba) := inferInstanceAs (Decidable (_ ∧ _))

theorem inFat_iff : InFat g lba ↔ ¬ (lba < g.fatBegin ∨ g.fatBegin + g.fatSize ≤ lba) := by
  rw [InFat]
  omega

structure Caches (g : Geometry) (c : CachedVolume) (v : Volume Sector) : Prop where
  allocStart : c.allocStart = v.allocStart
  consistent : Consistent lbaHash (InFat g) c.toMemory
  content : ∀ lba, InFat g lba -> ∀ k < g.entriesPerSector,
    view lbaHash c.toMemory lba k = v.fat ((lba - g.fatBegin) * g.entriesPerSector + k)

structure Mounted (g : Geometry) : Prop where
  boot : 0 < g.fatBegin
  onDisk : g.fatBegin + g.fatSize ≤ g.partSize

def FetchSafe (c : CachedVolume) (lba : Nat) : Prop :=
  lba < fatCacheSize ∨ (c.lines (lbaHash lba)).tag ≠ lba

variable {k : Nat}

section fetch

theorem lbaHash_lt (lba : Nat) : lbaHash lba < fatCacheSize := Nat.mod_lt _ (by decide)

theorem lbaHash_eq (small : lba < fatCacheSize) : lbaHash lba = lba := Nat.mod_eq_of_lt small

theorem load_entry (c : CachedVolume) (lba : Nat) : load c (lbaHash lba) = .ok (c.lines (lbaHash lba)).value :=
  if_pos (lbaHash_lt lba)

theorem fetchFatSector_miss (mounted : Mounted g) (consistent : Consistent lbaHash (InFat g) c.toMemory)
    (inside : InFat g lba) (absent : (c.lines (lbaHash lba)).tag ≠ lba) :
    fetchFatSector g c lba = .ok (⟨setLine lbaHash (writeBack c.toMemory (lbaHash lba)) lba false
      ((writeBack c.toMemory (lbaHash lba)).backing lba), c.allocStart⟩, lbaHash lba) := by
  have onDisk : ¬ g.partSize ≤ lba := by
    have := inside.2
    have := mounted.onDisk
    omega
  have added : addCacheEntry g c lba = .ok (⟨⟨(writeBack c.toMemory (lbaHash lba)).backing,
      update (writeBack c.toMemory (lbaHash lba)).lines (lbaHash lba)
        { (writeBack c.toMemory (lbaHash lba)).lines (lbaHash lba) with tag := lba }⟩, c.allocStart⟩, lbaHash lba) := by
    by_cases modified : (c.lines (lbaHash lba)).modified = true
    · have tag := consistent.used _ modified
      have written : ¬ g.partSize < (c.lines (lbaHash lba)).tag := by
        have := tag.2
        have := mounted.onDisk
        omega
      simp only [addCacheEntry, modified, if_true, writeSector, if_neg written, writeBack]
      rfl
    · simp only [addCacheEntry, modified, writeBack]
      rfl
  rw [fetchFatSector, if_neg (inFat_iff.mp inside), cacheAccess, if_neg absent]
  simp only [added]
  show (if g.partSize ≤ lba then _ else _) = _
  rw [if_neg onDisk]
  simp only [setLine, update_self, update_idem, writeBack_clean]
  rfl

structure Fetched (g : Geometry) (c c' : CachedVolume) (v : Volume Sector) (lba : Nat) : Prop where
  fetch : fetchFatSector g c lba = .ok (c', lbaHash lba)
  tag : (c'.lines (lbaHash lba)).tag = lba
  caches : Caches g c' v

theorem fetchFatSector_safe (mounted : Mounted g) (caches : Caches g c v) (inside : InFat g lba)
    (safe : FetchSafe c lba) : ∃ c', Fetched g c c' v lba := by
  by_cases hit : (c.lines (lbaHash lba)).tag = lba
  · have small : lba < fatCacheSize := by
      rcases safe with small | miss
      · exact small
      · exact absurd hit miss
    refine ⟨c, ?_, hit, caches⟩
    rw [fetchFatSector, if_neg (inFat_iff.mp inside), cacheAccess, if_pos hit, lbaHash_eq small]
  · have back := writeBack_consistent caches.consistent (lbaHash lba)
    refine ⟨_, fetchFatSector_miss mounted caches.consistent inside hit, ?_, caches.allocStart, ?_, ?_⟩
    · rw [setLine_self]
    · exact setLine_consistent back inside fun _ => rfl
    · intro other inFat k small
      rw [← caches.content other inFat k small, ← view_writeBack caches.consistent (lbaHash lba) inFat]
      have absent : ((writeBack c.toMemory (lbaHash lba)).lines (lbaHash lba)).tag ≠ lba := by
        rw [writeBack_tag]
        exact hit
      exact congrFun (view_fill back (writeBack_clean _) absent inFat) k

theorem Fetched.word (fetched : Fetched g c c' v lba) (inside : InFat g lba) (small : k < g.entriesPerSector) :
    (c'.lines (lbaHash lba)).value k = v.fat ((lba - g.fatBegin) * g.entriesPerSector + k) := by
  rw [← fetched.caches.content lba inside k small, view, if_pos fetched.tag]

def Access (g : Geometry) (c : CachedVolume) (lba : Nat) : Prop := InFat g lba -> FetchSafe c lba

theorem fetch_cases (mounted : Mounted g) (caches : Caches g c v) (lba : Nat) :
    (Access g c lba ∧ ¬ InFat g lba ∧ fetchFatSector g c lba = .error (.fat (.outsideFat lba))) ∨
      (Access g c lba ∧ InFat g lba ∧ ∃ c', Fetched g c c' v lba) ∨
      (¬ Access g c lba ∧ fetchFatSector g c lba = .ok (c, lba) ∧ load c lba = .error (.outsideCache lba)) := by
  by_cases inside : InFat g lba
  · by_cases near : FetchSafe c lba
    · exact .inr (.inl ⟨fun _ => near, inside, fetchFatSector_safe mounted caches inside near⟩)
    · refine .inr (.inr ⟨fun safe => near (safe inside), ?_⟩)
      rw [FetchSafe] at near
      push Not at near
      rw [fetchFatSector, if_neg (inFat_iff.mp inside), cacheAccess, if_pos near.2, load, if_neg (by omega)]
      exact ⟨rfl, rfl⟩
  · exact .inl ⟨fun impossible => absurd impossible inside, inside, if_pos (not_not.mp (mt inFat_iff.mpr inside))⟩

end fetch

section access

def Agree {R : Type} (g : Geometry) : Except CacheFault (CachedVolume × R) -> Except Fault (Volume Sector × R) -> Prop
  | .ok (c, r), .ok (v, r') => r = r' ∧ Caches g c v
  | .error e, .error e' => e = .fat e'
  | _, _ => False

variable {R : Type} {x : Except CacheFault (CachedVolume × R)}

theorem Agree.cases {y : Except Fault (Volume Sector × R)} (agree : Agree g x y) :
    (∃ e, x = .error (.fat e) ∧ y = .error e) ∨ ∃ c v r, x = .ok (c, r) ∧ y = .ok (v, r) ∧ Caches g c v := by
  cases x with
  | error e =>
    cases y with
    | error e' => exact .inl ⟨e', congrArg _ agree, rfl⟩
    | ok result => cases agree
  | ok result =>
    cases y with
    | error e' => cases agree
    | ok result' =>
      obtain ⟨same, caches⟩ := agree
      exact .inr ⟨result.1, result'.1, result.2, rfl, by rw [same], caches⟩

theorem Agree.cases_map {y : Except Fault R} (agree : Agree g x (y.map fun r => (v, r))) :
    (∃ e, x = .error (.fat e) ∧ y = .error e) ∨ ∃ c r, x = .ok (c, r) ∧ y = .ok r ∧ Caches g c v := by
  cases y with
  | error e =>
    rcases agree.cases with ⟨e', cached, plain⟩ | ⟨c, v', r, cached, plain, caches⟩
    · cases plain
      exact .inl ⟨e, cached, rfl⟩
    · cases plain
  | ok r =>
    rcases agree.cases with ⟨e', cached, plain⟩ | ⟨c, v', r, cached, plain, caches⟩
    · cases plain
    · cases plain
      exact .inr ⟨c, _, cached, rfl, caches⟩

-- The cache follows the table while `safe` holds, and otherwise leaves its buffer.
def Outcome (g : Geometry) (safe : Prop) (x : Except CacheFault (CachedVolume × R))
    (y : Except Fault (Volume Sector × R)) : Prop :=
  (safe ∧ Agree g x y) ∨ (¬ safe ∧ ∃ pointer, x = .error (.outsideCache pointer))

theorem entryPlace_word (g : Geometry) (cluster : Nat) : (entryPlace g cluster).2 < g.entriesPerSector := by
  have positive := le_entriesPerSector (g := g)
  show cluster * 4 % 2 ^ 32 % g.blockSize / 4 < _
  rw [blockSize_eq]
  exact Nat.div_lt_of_lt_mul (Nat.mod_lt _ (by omega))

theorem entryIndex_inside (inside : InFat g (entryPlace g cluster).1) :
    entryIndex g cluster = .ok (((entryPlace g cluster).1 - g.fatBegin) * g.entriesPerSector + (entryPlace g cluster).2) := by
  obtain ⟨above, below⟩ := inside
  exact if_neg (by simp only [entryPlace] at above below; omega)

theorem entryIndex_outside (outside : ¬ InFat g (entryPlace g cluster).1) :
    entryIndex g cluster = .error (.outsideFat (entryPlace g cluster).1) := by
  refine if_pos ?_
  rw [InFat] at outside
  simp only [entryPlace] at outside
  omega

theorem readFAT_outcome (mounted : Mounted g) (caches : Caches g c v) (cluster : Nat) :
    Outcome g (Access g c (entryPlace g cluster).1) (c.readFAT g cluster)
      ((readFAT g v cluster).map fun next => (v, next)) := by
  simp only [CachedVolume.readFAT, readFAT, bind, Except.bind]
  rcases fetch_cases mounted caches (entryPlace g cluster).1 with ⟨access, outside,
    fetch⟩ | ⟨access, inside, c', fetched⟩ | ⟨far, fetch, loaded⟩
  · rw [fetch, entryIndex_outside outside]
    exact .inl ⟨access, rfl⟩
  · refine .inl ⟨access, ?_⟩
    have word := fetched.word inside (entryPlace_word g cluster)
    simp only [entryIndex_inside inside, fetched.fetch, load_entry, word]
    split_ifs
    · rfl
    · rfl
    · exact ⟨rfl, fetched.caches⟩
    · exact ⟨rfl, fetched.caches⟩
  · simp only [fetch, loaded]
    exact .inr ⟨far, _, rfl⟩

theorem Fetched.store (fetched : Fetched g c c' v lba) (inside : InFat g lba)
    (small : k < g.entriesPerSector) (value : BitVec 32) :
    Caches g ⟨setLine lbaHash c'.toMemory lba true (update (c'.lines (lbaHash lba)).value k value), c'.allocStart⟩
      { v with fat := update v.fat ((lba - g.fatBegin) * g.entriesPerSector + k) value } := by
  have caches := fetched.caches
  refine ⟨caches.allocStart, setLine_consistent caches.consistent inside fun impossible => (by cases impossible), ?_⟩
  intro other inFat l bound
  have viewed := caches.content other inFat l bound
  have apart : other ≠ lba ∨ l ≠ k ->
      (other - g.fatBegin) * g.entriesPerSector + l ≠ (lba - g.fatBegin) * g.entriesPerSector + k := by
    intro different same
    have words := congrArg (· % g.entriesPerSector) same
    have sectors := congrArg (· / g.entriesPerSector) same
    have positive : 0 < g.entriesPerSector := by omega
    simp only [Nat.mul_add_mod_self_right, Nat.mod_eq_of_lt bound, Nat.mod_eq_of_lt small] at words
    simp only [Nat.mul_add_div positive, Nat.mul_comm _ g.entriesPerSector, Nat.div_eq_of_lt bound,
      Nat.div_eq_of_lt small] at sectors
    have := inside.1
    have := inFat.1
    omega
  rw [view_modify _ fetched.tag]
  show _ = update v.fat _ value _
  by_cases same : other = lba
  · subst same
    rw [update_self]
    by_cases equal : l = k
    · subst equal
      rw [update_self, update_self]
    · rw [update_of_ne equal, update_of_ne (apart (.inr equal)), ← viewed, view, if_pos fetched.tag]
  · rw [update_of_ne same, update_of_ne (apart (.inl same)), viewed]

theorem linkFAT_outcome (mounted : Mounted g) (caches : Caches g c v) (cluster : Nat) (target : BitVec 32) (r : R) :
    Outcome g (Access g c (entryPlace g cluster).1) ((c.linkFAT g cluster target).map fun c =>
      (c, r)) ((linkFAT g v cluster target).map fun v => (v, r)) := by
  simp only [CachedVolume.linkFAT, linkFAT, bind, Except.bind]
  rcases fetch_cases mounted caches (entryPlace g cluster).1 with ⟨access, outside,
    fetch⟩ | ⟨access, inside, c', fetched⟩ | ⟨far, fetch, loaded⟩
  · rw [fetch, entryIndex_outside outside]
    exact .inl ⟨access, rfl⟩
  · refine .inl ⟨access, ?_⟩
    have word := fetched.word inside (entryPlace_word g cluster)
    have stored := fetched.store inside (entryPlace_word g cluster)
    simp only [entryIndex_inside inside, fetched.fetch, load_entry, word]
    split
    · rfl
    · split
      · rfl
      · simp only [markModified, update_self, fetched.tag, update_idem, ne_eq, not_true_eq_false, if_false]
        exact ⟨rfl, stored _⟩
  · simp only [fetch, loaded]
    exact .inr ⟨far, _, rfl⟩

end access

section search

theorem findFreeWord_eq {sector : Sector} {base : Nat}
    (same : ∀ k < g.entriesPerSector, sector k = v.fat (base + k)) (count i : Nat) (bound : i + count ≤ g.entriesPerSector) :
    findFreeWord sector count i = findFree v base count i := by
  induction count generalizing i with
  | zero => rfl
  | succ count ih => rw [findFreeWord, findFree, same i (by omega), ih (i + 1) (by omega)]

-- Where the search starts in a sector; the first two entries of the table are reserved.
def firstWord (g : Geometry) (lba : Nat) : Nat := if lba = g.fatBegin then 2 else 0

def SearchSafe (g : Geometry) (last lastSector : Nat) : Nat -> CachedVolume -> Nat -> Prop
  | 0, _, _ => True
  | fuel + 1, c, lba =>
    lba = lastSector ∨ (Access g c lba ∧ ∀ c' pointer sector, fetchFatSector g c lba = .ok (c', pointer) ->
      load c' pointer = .ok sector -> findFreeWord sector (g.entriesPerSector - firstWord g lba) (firstWord g lba) = none ->
        SearchSafe g last lastSector fuel c' (if lba = last then g.fatBegin else lba + 1))

theorem Fetched.findFree (fetched : Fetched g c c' v lba) (inside : InFat g lba) :
    findFreeWord (c'.lines (lbaHash lba)).value (g.entriesPerSector - firstWord g lba) (firstWord g lba) =
      Fat32.findFree v ((lba - g.fatBegin) * g.entriesPerSector)
        (g.entriesPerSector - firstWord g lba) (firstWord g lba) := by
  have enough := le_entriesPerSector (g := g)
  refine findFreeWord_eq (fun k small => fetched.word inside small) _ _ ?_
  rw [firstWord]
  split
  · omega
  · omega

theorem searchFAT_outcome (mounted : Mounted g) (last lastSector fuel : Nat) (caches : Caches g c v) :
    Outcome g (SearchSafe g last lastSector fuel c lba) (searchCached g last lastSector fuel c lba)
      ((searchFAT g v last lastSector fuel lba).map fun found => (v, found)) := by
  induction fuel generalizing c lba with
  | zero => exact .inl ⟨trivial, rfl⟩
  | succ fuel ih =>
    rw [searchCached, searchFAT, SearchSafe]
    by_cases done : lba = lastSector
    · rw [if_pos done, if_pos done]
      exact .inl ⟨.inl done, rfl, caches⟩
    rw [if_neg done, if_neg done, or_iff_right done]
    rcases fetch_cases mounted caches lba with ⟨access, outside, fetch⟩ | ⟨access, inside, c', fetched⟩ | ⟨far, fetch, loaded⟩
    · rw [fetch, if_pos (not_not.mp (mt inFat_iff.mpr outside))]
      exact .inl ⟨⟨access, by rintro _ _ _ ⟨⟩⟩, rfl⟩
    · have found := fetched.findFree inside
      rw [if_neg (inFat_iff.mp inside), fetched.fetch]
      simp only [bind, Except.bind, load_entry, firstWord] at found ⊢
      rw [found]
      cases result : Fat32.findFree v ((lba - g.fatBegin) * g.entriesPerSector)
          (g.entriesPerSector - if lba = g.fatBegin then 2 else 0) (if lba = g.fatBegin then 2 else 0) with
      | some i =>
        refine .inl ⟨⟨access, ?_⟩, rfl, fetched.caches⟩
        rintro _ _ _ ⟨⟩ loaded full
        rw [load_entry] at loaded
        cases loaded
        rw [found, result] at full
        cases full
      | none =>
        rw [result] at found
        rcases ih fetched.caches with ⟨safe, agree⟩ | ⟨far, failed⟩
        · refine .inl ⟨⟨access, ?_⟩, agree⟩
          rintro _ _ _ ⟨⟩ - -
          exact safe
        · exact .inr ⟨fun safe => far (safe.2 _ _ _ rfl (load_entry c' lba) found), failed⟩
    · rw [fetch]
      simp only [bind, Except.bind, loaded]
      exact .inr ⟨fun safe => far safe.1, _, rfl⟩

def AllocSafe (g : Geometry) (c : CachedVolume) : Prop :=
  InFat g c.allocStart -> SearchSafe g (g.fatBegin + g.fatSize - 1)
    (if c.allocStart = g.fatBegin then g.fatBegin + g.fatSize - 1 else c.allocStart - 1) (g.fatSize + 1) c c.allocStart

theorem allocFAT_outcome (mounted : Mounted g) (caches : Caches g c v) :
    Outcome g (AllocSafe g c) (c.allocFAT g) (allocFAT g v) := by
  rw [CachedVolume.allocFAT, allocFAT, ← caches.allocStart]
  split
  · exact .inl ⟨fun inside => by have := inside.1; omega, rfl⟩
  split
  · exact .inl ⟨fun inside => by have := inside.2; omega, rfl⟩
  · rename_i above below
    have inside : InFat g c.allocStart := ⟨by omega, by omega⟩
    simp only [bind, Except.bind]
    rcases searchFAT_outcome mounted _ _ _ caches with ⟨safe, agrees⟩ | ⟨far, pointer, failed⟩
    · refine .inl ⟨fun _ => safe, ?_⟩
      rcases agrees.cases_map with ⟨e, cached, plain⟩ | ⟨c', found, cached, plain, caches'⟩
      · simp only [cached, plain]
        rfl
      · simp only [cached, plain]
        cases found with
        | none => exact ⟨rfl, caches'⟩
        | some place => exact ⟨rfl, rfl, caches'.consistent, caches'.content⟩
    · rw [failed]
      exact .inr ⟨fun safe => far (safe inside), pointer, rfl⟩

end search

section flush

theorem flushFrom_succ (mounted : Mounted g) (caches : Caches g c v) (count i : Nat) :
    flushFrom g (count + 1) i c = flushFrom g count (i + 1) ⟨writeBack c.toMemory i, c.allocStart⟩ := by
  by_cases modified : (c.lines i).modified = true
  · have tag := caches.consistent.used i modified
    have written : ¬ g.partSize < (c.lines i).tag := by
      have := tag.2
      have := mounted.onDisk
      omega
    simp only [flushFrom, modified, if_true, writeSector, if_neg written, writeBack, bind, Except.bind]
  · simp only [flushFrom, modified, writeBack, bind, Except.bind]
    rfl

structure Flushed (g : Geometry) (c c' : CachedVolume) (v : Volume Sector) (i count : Nat) : Prop where
  caches : Caches g c' v
  clean : ∀ j, (i ≤ j ∧ j < i + count) ∨ (c.lines j).modified = false -> (c'.lines j).modified = false

theorem flushFrom_flushes (mounted : Mounted g) (count i : Nat) (caches : Caches g c v) :
    ∃ c', flushFrom g count i c = .ok c' ∧ Flushed g c c' v i count := by
  induction count generalizing i c with
  | zero =>
    refine ⟨c, rfl, caches, ?_⟩
    rintro j (impossible | clean)
    · omega
    · exact clean
  | succ count ih =>
    have next : Caches g ⟨writeBack c.toMemory i, c.allocStart⟩ v := by
      refine ⟨caches.allocStart, writeBack_consistent caches.consistent i, ?_⟩
      intro lba inside k small
      rw [← caches.content lba inside k small]
      exact congrFun (view_writeBack caches.consistent i inside) k
    obtain ⟨c', result, flushed⟩ := ih (i + 1) next
    refine ⟨c', (flushFrom_succ mounted caches count i).trans result, flushed.caches, ?_⟩
    intro j dirty
    apply flushed.clean j
    rw [writeBack_modified]
    by_cases same : j = i
    · exact .inr (if_pos same)
    · rw [if_neg same]
      rcases dirty with range | clean
      · exact .inl (by omega)
      · exact .inr clean

end flush

section sequences

inductive FatOp where
  | read (cluster : Nat)
  | alloc
  | link (source : Nat) (target : BitVec 32)
  | flush
  deriving DecidableEq

def execCached (g : Geometry) (c : CachedVolume) : FatOp -> Except CacheFault (CachedVolume × Nat)
  | .read cluster => c.readFAT g cluster
  | .alloc => c.allocFAT g
  | .link source target => (c.linkFAT g source target).map fun c => (c, 0)
  | .flush => (flushFatCache g c).map fun c => (c, 0)

def execPlain (g : Geometry) (v : Volume Sector) : FatOp -> Except Fault (Volume Sector × Nat)
  | .read cluster => (readFAT g v cluster).map fun next => (v, next)
  | .alloc => allocFAT g v
  | .link source target => (linkFAT g v source target).map fun v => (v, 0)
  | .flush => .ok (v, 0)

def OpSafe (g : Geometry) (c : CachedVolume) : FatOp -> Prop
  | .read cluster => Access g c (entryPlace g cluster).1
  | .alloc => AllocSafe g c
  | .link source _ => Access g c (entryPlace g source).1
  | .flush => True

def RunSafe (g : Geometry) : CachedVolume -> List FatOp -> Prop
  | _, [] => True
  | c, op :: rest => OpSafe g c op ∧ ∀ c' r, execCached g c op = .ok (c', r) -> RunSafe g c' rest

def plainVolume (g : Geometry) (disk : Nat -> Sector) : Volume Sector :=
  { fat := fun index => disk (g.fatBegin + index / g.entriesPerSector) (index % g.entriesPerSector)
    allocStart := g.fatBegin
    disk }

theorem setupCache_caches (mounted : Mounted g) (disk garbage : Nat -> Sector) :
    Caches g (setupCache g disk garbage) (plainVolume g disk) := by
  have unused : ¬ InFat g 0 := by
    have := mounted.boot
    rw [InFat]
    omega
  refine ⟨rfl, ⟨?_, ?_, ?_⟩, ?_⟩
  · intro i used
    exact absurd used unused
  · nofun
  · intro i _ used
    exact absurd used unused
  · intro lba inside k small
    have absent : ¬ 0 = lba := by
      rintro rfl
      exact unused inside
    have positive : 0 < g.entriesPerSector := by omega
    show (if 0 = lba then garbage (lbaHash lba) else disk lba) k =
      disk (g.fatBegin + ((lba - g.fatBegin) * g.entriesPerSector + k) / g.entriesPerSector)
        (((lba - g.fatBegin) * g.entriesPerSector + k) % g.entriesPerSector)
    have sector : ((lba - g.fatBegin) * g.entriesPerSector + k) / g.entriesPerSector = lba - g.fatBegin := by
      rw [Nat.mul_comm, Nat.mul_add_div positive, Nat.div_eq_of_lt small, Nat.add_zero]
    have word : ((lba - g.fatBegin) * g.entriesPerSector + k) % g.entriesPerSector = k := by
      rw [Nat.mul_add_mod_self_right, Nat.mod_eq_of_lt small]
    rw [if_neg absent, sector, word, Nat.add_sub_cancel' inside.1]

variable {op : FatOp}

section

variable (mounted : Mounted g) (caches : Caches g c v)
include mounted caches

theorem exec_outcome (op : FatOp) : Outcome g (OpSafe g c op) (execCached g c op) (execPlain g v op) := by
  cases op with
  | read cluster => exact readFAT_outcome mounted caches cluster
  | alloc => exact allocFAT_outcome mounted caches
  | link source target => exact linkFAT_outcome mounted caches source target 0
  | flush =>
    obtain ⟨c', result, flushed⟩ := flushFrom_flushes mounted fatCacheSize 0 caches
    refine .inl ⟨trivial, ?_⟩
    show Agree g ((flushFrom g fatCacheSize 0 c).map fun c => (c, 0)) (.ok (v, 0))
    rw [result]
    exact ⟨rfl, flushed.caches⟩

theorem outputs_eq_iff (ops : List FatOp) :
    outputs (execCached g) c ops = (outputs (execPlain g) v ops).map (Except.mapError CacheFault.fat) ↔ RunSafe g c ops := by
  induction ops generalizing c v with
  | nil => exact ⟨fun _ => trivial, fun _ => rfl⟩
  | cons op rest ih =>
    rw [outputs, outputs, RunSafe]
    rcases exec_outcome mounted caches op with ⟨safe, agree⟩ | ⟨far, pointer, failed⟩
    · rcases agree.cases with ⟨e, cached, plain⟩ | ⟨c', v', r, cached, plain, caches'⟩
      · rw [cached, plain]
        refine ⟨fun _ => ⟨safe, nofun⟩, fun _ => rfl⟩
      · rw [cached, plain]
        show Except.ok r :: outputs (execCached g) c' rest = Except.ok r :: _ ↔ _
        rw [List.cons.injEq]
        constructor
        · rintro ⟨-, same⟩
          refine ⟨safe, fun c'' r' equal => ?_⟩
          cases equal
          exact (ih caches').mp same
        · rintro ⟨-, later⟩
          exact ⟨rfl, (ih caches').mpr (later c' r rfl)⟩
    · rw [failed]
      refine ⟨fun same => ?_, fun holds => absurd holds.1 far⟩
      exfalso
      cases plain : execPlain g v op <;> rw [plain] at same <;> cases same

end

theorem runSafe_of_small (small : g.fatBegin + g.fatSize ≤ fatCacheSize) (c : CachedVolume)
    (ops : List FatOp) : RunSafe g c ops := by
  have fetchSafe : ∀ c lba, Access g c lba := fun c lba inside => .inl (by have := inside.2; omega)
  have searchSafe : ∀ last lastSector fuel c lba, SearchSafe g last lastSector fuel c lba := by
    intro last lastSector fuel
    induction fuel with
    | zero => exact fun _ _ => trivial
    | succ fuel ih => exact fun c lba => .inr ⟨fetchSafe c lba, fun c' _ _ _ _ _ => ih c' _⟩
  induction ops generalizing c with
  | nil => trivial
  | cons op rest ih =>
    refine ⟨?_, fun c' _ _ => ih c'⟩
    cases op with
    | read cluster => exact fetchSafe c _
    | alloc => exact fun _ => searchSafe _ _ _ c _
    | link source target => exact fetchSafe c _
    | flush => trivial

theorem fat_cache_transparent_iff (mounted : Mounted g) (disk garbage : Nat -> Sector)
    (ops : List FatOp) : (outputs (execCached g) (setupCache g disk garbage) ops =
        (outputs (execPlain g) (plainVolume g disk) ops).map (Except.mapError CacheFault.fat) ↔
      RunSafe g (setupCache g disk garbage) ops) ∧
    (g.fatBegin + g.fatSize ≤ fatCacheSize -> RunSafe g (setupCache g disk garbage) ops) :=
  ⟨outputs_eq_iff mounted (setupCache_caches mounted disk garbage) ops, fun small => runSafe_of_small small _ ops⟩

def largeGeometry : Geometry :=
  { lbashift := 9
    clusterSize := 8
    fatBegin := 32
    fatSize := 4096
    dataBegin := 4128
    partSize := 2 ^ 23
    sectorSizes := sectorSizes_least
    clusterSizes := by decide
    fatSizes := by decide
    fatBefore := by decide }

theorem largeGeometry_mounted : Mounted largeGeometry := ⟨by decide, by decide⟩

theorem fat_cache_transparent_collision :
    outputs (execCached largeGeometry) (setupCache largeGeometry (fun _ _ => 0) fun _ _ => 0)
        [.link 5 endOfChain, .link (2048 * 128 + 5) endOfChain, .read 5] = [.ok 0, .ok 0, .ok 0] ∧
      RunSafe largeGeometry (setupCache largeGeometry (fun _ _ => 0) fun _ _ => 0)
        [.link 5 endOfChain, .link (2048 * 128 + 5) endOfChain, .read 5] := by
  have same := fat_cache_transparent_iff largeGeometry_mounted (fun _ _ => 0) (fun _ _ => 0)
    [.link 5 endOfChain, .link (2048 * 128 + 5) endOfChain, .read 5]
  exact ⟨rfl, same.1.mp rfl⟩

theorem fat_cache_hit_outside_buffer :
    outputs (execCached largeGeometry) (setupCache largeGeometry (fun _ _ => endOfChain) fun _ _ =>
        0) [.read (2048 * 128 + 5), .read (2048 * 128 + 5)] = [.ok 0, .error (.outsideCache 2080)] ∧
      outputs (execPlain largeGeometry) (plainVolume largeGeometry fun _ _ => endOfChain)
        [.read (2048 * 128 + 5), .read (2048 * 128 + 5)] = [.ok 0, .ok 0] :=
  ⟨rfl, rfl⟩

end sequences

end Bincows.Fat32
