import Bincows.Fs.FatWriter

set_option autoImplicit false

/-! `fat32_read_dir` and `fat32_add_dirent`. A sector of a directory is an array of records. The bytes of `longname` behind
its terminator are not initialised; they are 0 here, and nobody reads them. -/

namespace Bincows.Fat32

open Blocks Function

structure FatDir where
  name : List UInt8
  attr : UInt8
  clusterHigh : UInt16
  clusterLow : UInt16
  fileSize : UInt32
  notLong : attr ≠ 0x0f
  deriving DecidableEq

structure FatLongFilename where
  order : UInt8
  chars : List UInt16
  deriving DecidableEq

inductive DirRecord where
  | dir (d : FatDir)
  | long (e : FatLongFilename)
  deriving DecidableEq

def zeroRecord : DirRecord :=
  .dir { name := List.replicate 11 0, attr := 0, clusterHigh := 0, clusterLow := 0, fileSize := 0, notLong := by decide }

def DirRecord.first : DirRecord -> UInt8
  | .dir d => d.name.headD 0
  | .long e => e.order

def DirRecord.second : DirRecord -> UInt8
  | .dir d => d.name.getD 1 0
  | .long e => (e.chars.headD 0).toUInt8

inductive FileType where
  | regular
  | directory
  deriving DecidableEq

structure Dirent where
  name : List UInt8
  type : FileType
  ino : Nat
  fileSize : Nat
  deriving DecidableEq

def fatAttr2fsType (attr : UInt8) : FileType := if attr &&& 0x10 ≠ 0 then .directory else .regular

def fsType2fatAttr : FileType -> UInt8
  | .directory => 0x10
  | .regular => 0

abbrev NameBuf := Nat -> UInt8

def nameBufSize : Nat := 256

def cString (buf : NameBuf) : List UInt8 := (readBlocks buf 0 nameBufSize).takeWhile (· ≠ 0)

def utf16le2ascii : List UInt16 -> List UInt8
  | [] => []
  | c :: rest =>
    let a := if 127 < c.toUInt8 then 63 else c.toUInt8
    if a = 0 then [0] else a :: utf16le2ascii rest

-- With order 0 the copy goes to the fields in front of the name, which are set with the last record.
def handleLongFilenameEntry (e : FatLongFilename) (nameBuf : NameBuf) : NameBuf :=
  let order := (e.order &&& 0x0f).toNat
  if order = 0 then nameBuf
  else writeBlocks nameBuf (13 * (order - 1)) ((utf16le2ascii e.chars ++ List.replicate 13 0).take 13)

-- What the kernel's `strncpy` stores: it ends behind `n` characters too, and does not pad.
def strncpy (src : List UInt8) (n : Nat) : List UInt8 := (src.take n).takeWhile (· ≠ 0) ++ [0]

def trimmed (buf : NameBuf) : Nat -> Nat
  | 0 => 0
  | n + 1 => if buf n = 32 then trimmed buf n else n + 1

def clearSpaces : Nat -> NameBuf -> NameBuf
  | 0, buf => if buf 0 = 32 then update buf 0 0 else buf
  | i + 1, buf => if buf (i + 1) = 32 then clearSpaces i (update buf (i + 1) 0) else buf

def shortName (d : FatDir) (nameBuf : NameBuf) : NameBuf :=
  let buf := writeBlocks nameBuf 0 (strncpy d.name 8)
  let n := trimmed buf 8
  if d.name.getD 8 0 ≠ 32 then
    clearSpaces (n + 4) (writeBlocks (update buf n 46) (n + 1) (strncpy (d.name.drop 8) 3))
  else update buf n 0

structure Parser where
  entries : List Dirent
  name : NameBuf
  longEntry : Bool

def Parser.start : Parser := { entries := [], name := fun _ => 0, longEntry := false }

def newDirent (d : FatDir) (name : NameBuf) : Dirent :=
  { name := cString name
    type := fatAttr2fsType d.attr
    ino := d.clusterLow.toNat ||| d.clusterHigh.toNat <<< 16
    fileSize := d.fileSize.toNat }

def isDots (name : List UInt8) : Bool := name = [46] || name = [46, 46]

/-- `parse_dir_entry`, `none` at the end of the directory. A new entry has the next name buffer, which is zeroed. -/
def parseDirEntry (p : Parser) (r : DirRecord) : Option Parser :=
  if r.first = 0 then none
  else if r.second = 0xe5 then some p
  else
    match r with
    | .long e => some { p with name := handleLongFilenameEntry e p.name, longEntry := true }
    | .dir d =>
      let name := if p.longEntry then update p.name 255 0 else shortName d p.name
      if isDots (cString name) then some { p with name }
      else some { entries := p.entries ++ [newDirent d name], name := fun _ => 0, longEntry := false }

abbrev DirSector := Nat -> DirRecord

variable (g : Geometry)

def Geometry.recordsPerSector : Nat := g.blockSize / 32

def Geometry.entriesPerCluster : Nat := g.blockSize * g.clusterSize / 32

def readCluster (v : Volume DirSector) (cluster : Nat) : Except Fault (Nat -> DirRecord) := do
  let sectors ← asyncRead g v (clusterBegin g cluster) g.clusterSize
  return fun i => (sectors.getD (i / g.recordsPerSector) fun _ => zeroRecord) (i % g.recordsPerSector)

def writeCluster (v : Volume DirSector) (cluster : Nat) (buf : Nat -> DirRecord) : Except Fault (Volume DirSector) :=
  write g v (clusterBegin g cluster) ((List.range g.clusterSize).map fun s => fun k => buf (s * g.recordsPerSector + k))

def parseFrom (buf : Nat -> DirRecord) : Nat -> Nat -> Parser -> Parser × Bool
  | 0, _, p => (p, false)
  | count + 1, i, p =>
    match parseDirEntry p (buf i) with
    | none => (p, true)
    | some p => parseFrom buf count (i + 1) p

-- Each turn zeroes the entries from the current one on.
def readDirFrom (v : Volume DirSector) : Nat -> Nat -> Parser -> Except Fault Parser
  | 0, _, _ => .error .diverges
  | fuel + 1, cluster, p => do
    let buf ← readCluster g v cluster
    match parseFrom buf g.entriesPerCluster 0 { p with name := fun _ => 0 } with
    | (p, true) => return p
    | (p, false) =>
      let next ← readFAT g v cluster
      if next = 0 then return p else readDirFrom v fuel next p

def fat32ReadDir (v : Volume DirSector) (cluster : Nat) : Except Fault (List Dirent) := do
  let p ← readDirFrom g v (g.fatEntries + 1) cluster .start
  return p.entries

inductive DirFault where
  | fat (fault : Fault)
  | noEnd
  | driveFull
  | heapOverwritten
  deriving DecidableEq

def lift {A : Type} : Except Fault A -> Except DirFault A
  | .ok a => .ok a
  | .error fault => .error (.fat fault)

def findEnd (buf : Nat -> DirRecord) : Nat -> Nat -> Option Nat
  | 0, _ => none
  | count + 1, i => if (buf i).first = 0 then some i else findEnd buf count (i + 1)

structure DirWriter where
  volume : Volume DirSector
  cluster : Nat
  buf : Nat -> DirRecord
  offset : Nat

def findEndFrom (v : Volume DirSector) : Nat -> Nat -> Except DirFault DirWriter
  | 0, _ => .error (.fat .diverges)
  | fuel + 1, cluster => do
    let buf ← lift (readCluster g v cluster)
    match findEnd buf g.entriesPerCluster 0 with
    | some offset => return { volume := v, cluster, buf, offset }
    | none =>
      let next ← lift (readFAT g v cluster)
      if next = 0 then .error .noEnd else findEndFrom v fuel next

def emplaceDirent (w : DirWriter) (ent : DirRecord) : Except DirFault DirWriter := do
  let buf := update w.buf w.offset ent
  if w.offset + 1 = g.entriesPerCluster then
    let v ← lift (writeCluster g w.volume w.cluster buf)
    let (v, next) ← lift (readOrAllocateFAT g v w.cluster)
    if next = 0 then .error .driveFull
    else return { volume := v, cluster := next, buf := fun _ => zeroRecord, offset := 0 }
  else return { w with buf, offset := w.offset + 1 }

def longEntries (name : List UInt8) : Nat := (name.length + 12) / 13

def heapBlock (size : Nat) : Nat := max 32 ((size + 7) / 8 * 8)

/-- Where the name fills `namebuf`, `ascii2utf16le` stores the terminator behind it; what `malloc`
adds to the size has room for it, or the next header of the heap is overwritten. -/
def NameInBlock (name : List UInt8) : Prop :=
  2 * (name.length + 1) ≤ heapBlock (26 * longEntries name)

instance (name : List UInt8) : Decidable (NameInBlock name) := inferInstanceAs (Decidable (_ ≤ _))

/-- The characters of `namebuf`. -/
def encodedName (name : List UInt8) : List UInt16 :=
  (name.map UInt8.toUInt16 ++ [0] ++ List.replicate (13 * longEntries name) 0xffff).take (13 * longEntries name)

-- `name_ptr` goes forward while the order goes down.
def longRecord (name : List UInt8) (k : Nat) : DirRecord :=
  let order := UInt8.ofNat (longEntries name - k)
  .long
    { order := if longEntries name - k = longEntries name then order ||| 0x40 else order
      chars := ((encodedName name).drop (13 * k)).take 13 }

def shortRecord (type : FileType) : DirRecord :=
  .dir
    { name := [73, 83, 83, 79, 85, 32, 32, 32, 32, 32, 32]
      attr := fsType2fatAttr type
      clusterHigh := 0
      clusterLow := 0
      fileSize := 0
      notLong := by cases type <;> decide }

def newRecords (name : List UInt8) (type : FileType) : List DirRecord :=
  (List.range (longEntries name)).map (longRecord name) ++ [shortRecord type]

def fat32AddDirent (v : Volume DirSector) (dirCluster : Nat) (name : List UInt8) (type : FileType) :
    Except DirFault (Volume DirSector) := do
  let w ← findEndFrom g v (g.fatEntries + 1) dirCluster
  if NameInBlock name then
    let w ← (newRecords name type).foldlM (emplaceDirent g) w
    if w.offset ≠ 0 then lift (writeCluster g w.volume w.cluster w.buf) else return w.volume
  else .error .heapOverwritten

end Bincows.Fat32
