import Bincows.Fs.FreeClusters

set_option autoImplicit false

namespace Bincows.Fat32

open Blocks List

variable {g : Geometry} {v v' : Volume DirSector} {chain : List Nat} {c d p off : Nat}
  {name : List UInt8} {type : FileType}

def Lists (g : Geometry) (v : Volume DirSector) (d : Nat) (name : List UInt8) : Prop :=
  ∃ entries, fat32ReadDir g v d = .ok entries ∧ ∃ e ∈ entries, e.name = name

def Fits (g : Geometry) (off : Nat) (name : List UInt8) : Prop :=
  off + longEntries name + 1 ≤ g.entriesPerCluster

instance : Decidable (Fits g off name) := inferInstanceAs (Decidable (_ ≤ _))

theorem fillsUp_iff (fits : Fits g off name) (there : chain[p]? = some c) :
    FillsUp g chain (countWith g p off name) ↔ off + longEntries name + 1 = g.entriesPerCluster ∧ chain.length ≤ p + 1 := by
  have positive := entriesPerCluster_pos (g := g)
  have bound := lt_of_getElem? there
  have next : (p + 1) * g.entriesPerCluster = p * g.entriesPerCluster + g.entriesPerCluster := by
    rw [Nat.add_mul, Nat.one_mul]
  unfold Fits at fits
  unfold FillsUp countWith
  constructor
  · rintro ⟨m, behind, multiple⟩
    have more : (p + 1) * g.entriesPerCluster ≤ m * g.entriesPerCluster := Nat.mul_le_mul_right _ (by omega)
    have same : m = p + 1 := Nat.eq_of_mul_eq_mul_right positive (by omega)
    exact ⟨by omega, by omega⟩
  · rintro ⟨full, last⟩
    exact ⟨p + 1, last, by omega⟩

section listing

variable {new : List Nat} {rest : List DirEvent} (dir : Directory g v chain d)
  (ends : DirEnd g v chain p off c)
  (legal : Legal name) (inserted : Inserted g v v' chain p off c name type new rest)

include dir ends legal inserted

theorem Inserted.readDir_kept (keeps : KeepsName name) (fits : Fits g off name) :
    fat32ReadDir g v' d = .ok (parseEvents rest
      { entries := (parseEvents (events g v chain) .start).entries ++ [newEntry name type]
        name := fun _ => 0
        longEntry := false }).entries := by
  rw [inserted.readDir dir ends legal, parse_kept legal (parseEvents_tidy _ fun _ _ _ => rfl) dir.complete fits keeps]

theorem Inserted.readDir_lost (lost : ¬ (KeepsName name ∧ Fits g off name)) (stops : Stops rest) :
    ∃ own, fat32ReadDir g v' d = .ok ((parseEvents (events g v chain) .start).entries ++ own) ∧ ∀ e ∈ own, e.name ≠ name := by
  obtain ⟨own, entries, names⟩ :=
    parse_lost type legal (parseEvents_tidy (events g v chain) fun _ _ _ => rfl) dir.complete ends.inside lost
  refine ⟨own, ?_, names⟩
  rw [inserted.readDir dir ends legal, stops.parse, entries]

end listing

theorem Inserted.stops_of_zero {new : List Nat} {rest : List DirEvent} (placed : ∀ c, InRange g c -> Placed g c)
    (inserted : Inserted g (refill g v fun _ => zeroRecord) v' chain p off c name type new rest) : Stops rest := by
  rcases inserted.behind with ⟨stops, -⟩ | ⟨-, e, range, free, rfl⟩
  · exact stops
  have one : g.entriesPerCluster = g.entriesPerCluster - 1 + 1 := by
    have := entriesPerCluster_pos (g := g)
    omega
  rw [clusterRecords_refill (v := v) _ (placed e range) free, one, recordsFrom_succ]
  exact ⟨_, _, rfl, rfl⟩

def directoryGeometry : Geometry where
  lbashift := 9
  clusterSize := 1
  fatBegin := 0
  fatSize := 2
  dataBegin := 2
  partSize := 300
  sectorSizes := sectorSizes_least
  clusterSizes := by decide
  fatSizes := fatSizes_two
  fatBefore := by decide

def directoryVolume (recs : List DirRecord) : Volume DirSector where
  fat := fun c => if c = 2 then endOfChain else 0
  allocStart := 0
  disk := fun lba k => if lba = 2 then recs.getD k zeroRecord else zeroRecord

theorem directoryGeometry_placed (c : Nat) (range : InRange directoryGeometry c) : Placed directoryGeometry c := by
  have upper : c < 256 := range.2
  refine ⟨range.1, ?_⟩
  show 2 + (c - 1) * 1 ≤ min 300 (2 ^ 32)
  omega

theorem directoryVolume_directory (recs : List DirRecord) (used : ∀ r ∈ recs, r.first ≠ 0)
    (complete : (parseEvents (events directoryGeometry (directoryVolume recs) [2]) .start).longEntry = false) :
    Directory directoryGeometry (directoryVolume recs) [2] 2 := by
  have records : ∀ i, i < 16 -> clusterBuf directoryGeometry (directoryVolume recs) 2 i = recs.getD i zeroRecord := by
    intro i small
    have sector : i / 16 = 0 := Nat.div_eq_of_lt small
    have offset : i % 16 = i := Nat.mod_eq_of_lt small
    rw [clusterBuf_eq (show i < directoryGeometry.entriesPerCluster from small)]
    show (directoryVolume recs).disk (2 + i / 16) (i % 16) = _
    rw [sector, offset]
    rfl
  have last : link (directoryVolume recs).fat 2 = none := if_pos (show 0x0ffffff8 ≤ endOfChain &&& 0x0fffffff by decide)
  refine ⟨⟨⟨rfl, last⟩, ?_⟩, rfl, ⟨Nat.zero_le _, Nat.zero_lt_two⟩, directoryGeometry_placed, ?_, complete⟩
  · intro c member
    rw [mem_singleton.mp member]
    decide
  intro p i c q j e there there' small small' behind free
  obtain ⟨rfl, rfl⟩ : p = 0 ∧ c = 2 := by
    cases p <;> simp_all
  obtain ⟨rfl, rfl⟩ : q = 0 ∧ e = 2 := by
    cases q <;> simp_all
  rw [records i small] at free
  rw [records j small']
  have order : i ≤ j := by
    rcases behind with before | ⟨-, order⟩
    · omega
    · exact order
  by_cases inside : i < recs.length
  · rw [getD_eq_getElem _ _ inside] at free
    exact absurd free (used _ (getElem_mem inside))
  · rw [getD_eq_default _ _ (by omega)]
    rfl

theorem empty_directory : Directory directoryGeometry (directoryVolume []) [2] 2 :=
  directoryVolume_directory [] (fun _ => nofun) (by decide +kernel)

theorem empty_dirEnd : DirEnd directoryGeometry (directoryVolume []) [2] 0 0 2 :=
  ⟨rfl, by decide, fun _ => nofun, fun _ => nofun, by decide +kernel⟩

def namesAfter (v : Volume DirSector) (name : List UInt8) : Option (List (List UInt8)) :=
  match fat32AddDirent directoryGeometry v 2 name .regular with
  | .ok v => (fat32ReadDir directoryGeometry v 2).toOption.map (·.map Dirent.name)
  | .error _ => none

def Appends (g : Geometry) (v : Volume DirSector) (d : Nat) (name : List UInt8) (type : FileType) : Prop :=
  ∃ old v', fat32ReadDir g v d = .ok old ∧ fat32AddDirent g v d name type = .ok v' ∧
    fat32ReadDir g v' d = .ok (old ++ [newEntry name type])

def leftover : Nat -> DirRecord
  | 0 => shortRecord .regular
  | _ + 1 => zeroRecord

theorem leftover_listed (entries : List Dirent) (rest : List DirEvent) :
    ∃ e more, (parseEvents (.record (leftover 0) :: rest) { entries, name := fun _ => 0, longEntry := false }).entries =
      entries ++ e :: more := by
  have parsed : ∃ e, parseDirEntry { entries, name := fun _ => 0, longEntry := false } (leftover 0) =
      some { entries := entries ++ [e], name := fun _ => 0, longEntry := false } := ⟨_, rfl⟩
  obtain ⟨e, parsed⟩ := parsed
  rw [parseEvents, parsed]
  obtain ⟨more, found⟩ := parseEvents_entries rest { entries := entries ++ [e], name := fun _ => 0, longEntry := false }
  exact ⟨e, more, by rw [found, append_assoc]; rfl⟩

def fullVolume : Volume DirSector := directoryVolume (replicate 16 (shortRecord .regular))

end Bincows.Fat32
