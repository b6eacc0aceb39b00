/-
**The FAT32 driver of `fs/fat.rs`.**

Every method of `Fat32` as a program over the block device of `drivers/virtio_blk.rs`
(`read_sector`, `write_sector`), under the source's names. Numbers of the source (`u32`, `usize`)
are natural numbers: a sound geometry (`Fat.Layout`) keeps every address below `2 ^ 32`, and the
two casts that can cut a number, `n as u32` and `data.len() as u32`, are written out.

A `while` loop is a recursion on the bound the source gives it (`steps_left`), or, for `read_entry`
and `alloc_cluster`, on a number that the loop cannot exceed. A slot of a directory sector is named
by its index `0 .. 16` instead of its byte offset `32 * index`.

The four directory scans of the source differ only in what they do at a slot; they share
`scanChain` and are told apart by their visitors (`visitSlot`).
-/

import Ferros.Lib.Device
import Ferros.Fat.Names

namespace Ferros.Fat

open Lib

/-! ### Data -/

/-- A 512-byte sector. -/
abbrev Sector := Block 512

/-- A 32-byte directory slot. -/
abbrev Slot := Block 32

/-- A slot has a first byte. -/
instance slotNeZero : NeZero 32 := ⟨by decide⟩

/-- The content of the device. -/
abbrev Disk := ℕ → Sector

/-- `virtio_blk::BlkError`. -/
inductive BlkError
  | notInitialized
  | outOfRange
  | deviceError (status : UInt8)
  deriving DecidableEq, Repr

/-- `FatError`. -/
inductive FatError
  | block (e : BlkError)
  | unsupportedSectorSize
  | notFat32
  | notFound
  | noSpace
  | dirFull
  | notADirectory
  | isADirectory
  | alreadyExists
  | notEmpty
  deriving DecidableEq, Repr

/-- Programs of the driver. -/
abbrev FatM := DiskM Sector BlkError FatError

/-- `virtio_blk::read_sector`, with `BlkError` converted by `?`. -/
def readSector (lba : ℕ) : FatM Sector := readBlock FatError.block lba

/-- `virtio_blk::write_sector`. -/
def writeSector (lba : ℕ) (buf : Sector) : FatM Unit := writeBlock FatError.block lba buf

def fatEntriesPerSector : ℕ := 128
def fat32EntryMask : ℕ := 0x0FFFFFFF
def fat32Eoc : ℕ := 0x0FFFFFFF
def firstDataCluster : ℕ := 2
def attrLongName : UInt8 := 0x0F
def attrVolumeId : UInt8 := 0x08
def attrDirectory : UInt8 := 0x10
def attrArchive : UInt8 := 0x20

/-- A mounted volume. `mount` refuses a boot sector with no sector per cluster or no FAT. -/
structure Fat32 where
  sectorsPerCluster : ℕ
  fatStartSector : ℕ
  dataStartSector : ℕ
  rootCluster : ℕ
  clusterCount : ℕ
  numFats : ℕ
  fatSize : ℕ
  sectorsPerCluster_pos : 0 < sectorsPerCluster
  numFats_pos : 0 < numFats

/-- `DirEntry`: a directory entry as found. -/
structure DirEntry where
  firstCluster : ℕ
  size : ℕ
  isDir : Bool
  deriving DecidableEq, Repr

/-- `DirItem`: one line of a listing. -/
structure DirItem where
  name : List Char
  isDir : Bool
  deriving DecidableEq, Repr

/-- `Metadata` for `stat`. -/
structure Metadata where
  isDir : Bool
  size : ℕ
  firstCluster : ℕ
  deriving DecidableEq, Repr

/-- `Node`: what `lookup` finds. -/
inductive Node
  | file (content : Bytes)
  | dir (items : List DirItem)
  deriving DecidableEq, Repr

/-- Where a slot is: its sector and its index there. -/
abbrev Pos := ℕ × Fin 16

/-- What a scan does at a slot: go on, or stop with a result. -/
inductive Step (σ β : Type)
  | next (state : σ)
  | done (result : β)

/-! ### Bytes -/

/-- `read_u16`. -/
def readU16 {n : ℕ} (buf : Block n) (off : ℕ) (fits : off + 2 ≤ n) : ℕ := leVal 2 (slice buf off 2 fits)

/-- `read_u32`. -/
def readU32 {n : ℕ} (buf : Block n) (off : ℕ) (fits : off + 4 ≤ n) : ℕ := leVal 4 (slice buf off 4 fits)

/-- The slot at an index of a sector: an item of `buf.chunks_exact(DIR_ENTRY_SIZE)`. -/
def slotOf (buf : Sector) (i : Fin 16) : Slot := slice buf (32 * i.1) 32 (by omega)

/-- `&entry[..11]`. -/
def nameOf (slot : Slot) : Name := slice slot 0 11 (by decide)

/-- `entry[11]`. -/
def attrOf (slot : Slot) : UInt8 := slot 11

/-- The long-name and volume-label slots every scan passes over. -/
def skipped (attr : UInt8) : Bool :=
  (attr &&& attrLongName == attrLongName) || (attr &&& attrVolumeId != 0)

/-- `(hi << 16) | lo`. -/
def firstClusterOf (slot : Slot) : ℕ :=
  (readU16 slot 20 (by decide) <<< 16) ||| readU16 slot 26 (by decide)

def sizeOf (slot : Slot) : ℕ := readU32 slot 28 (by decide)

def isDirOf (slot : Slot) : Bool := attrOf slot &&& attrDirectory != 0

/-- The `DirEntry` of a slot. -/
def entryOf (slot : Slot) : DirEntry := ⟨firstClusterOf slot, sizeOf slot, isDirOf slot⟩

def fillDirEntry (entry : Slot) (name : Name) (attr : UInt8) (firstCluster size : ℕ) : Slot :=
  let entry := splice entry 0 name
  let entry := splice entry 11 (fun _ => attr : Block 1)
  let entry := splice entry 12 (fun _ => 0 : Block 8)
  let entry := splice entry 20 (leBytes 2 (firstCluster >>> 16))
  let entry := splice entry 22 (fun _ => 0 : Block 4)
  let entry := splice entry 26 (leBytes 2 (firstCluster &&& 0xFFFF))
  splice entry 28 (leBytes 4 size)

/-- Where the entry of a cluster is in its FAT sector. -/
def entryOffset (cluster : ℕ) : ℕ := cluster * 4 % 512

theorem entryOffset_fits (cluster : ℕ) : entryOffset cluster + 4 ≤ 512 := by
  unfold entryOffset
  omega

/-- The entry of a cluster in its FAT sector, all 32 bits. -/
def rawEntry (buf : Sector) (cluster : ℕ) : ℕ :=
  readU32 buf (entryOffset cluster) (entryOffset_fits cluster)

/-- The sector with the entry of a cluster set; the four reserved bits stay. -/
def putEntry (buf : Sector) (cluster value : ℕ) : Sector :=
  let old := rawEntry buf cluster
  let new := (old &&& 0xF0000000) ||| (value &&& fat32EntryMask)
  splice buf (entryOffset cluster) (leBytes 4 new)

/-- A sector that begins with the given bytes and is zero after them. -/
def padSector (chunk : Bytes) : Sector := fun i => chunk[i.1]?.getD 0

namespace Fat32

variable (vol : Fat32) {σ β : Type}

/-! ### Clusters -/

def validCluster (cluster : ℕ) : Bool :=
  firstDataCluster ≤ cluster && cluster < firstDataCluster + vol.clusterCount

def firstSectorOfCluster (cluster : ℕ) : ℕ :=
  vol.dataStartSector + (cluster - firstDataCluster) * vol.sectorsPerCluster

/-- The sectors of a cluster, in the order the loops `for s in 0..sectors_per_cluster` take. -/
def sectorsOf (cluster : ℕ) : List ℕ :=
  (List.range vol.sectorsPerCluster).map fun s => vol.firstSectorOfCluster cluster + s

def fatSector (fat cluster : ℕ) : ℕ :=
  vol.fatStartSector + fat * vol.fatSize + cluster * 4 / 512

def nextCluster (cluster : ℕ) : FatM ℕ := do
  let buf ← readSector (vol.fatStartSector + cluster * 4 / 512)
  return rawEntry buf cluster &&& fat32EntryMask

/-! ### Directory scans -/

/-- The case distinction all scans make: end of the directory, deleted slot, slot to pass over,
live entry. -/
def visitSlot (atEnd : β) (state deleted : σ) (live : Step σ β) (slot : Slot) : Step σ β :=
  if slot 0 = 0x00 then .done atEnd
  else if slot 0 = 0xE5 then .next deleted
  else if skipped (attrOf slot) then .next state
  else live

/-- The loop over the slots of one sector. -/
def scanSlots (visit : σ → Pos → Slot → Step σ β) (sector : ℕ) (buf : Sector) :
    List (Fin 16) → σ → Step σ β
  | [], state => .next state
  | i :: rest, state =>
    match visit state (sector, i) (slotOf buf i) with
    | .next state' => scanSlots visit sector buf rest state'
    | .done result => .done result

/-- The loop over the sectors of one cluster. -/
def scanSectors (visit : σ → Pos → Slot → Step σ β) : List ℕ → σ → FatM (Step σ β)
  | [], state => return .next state
  | sector :: rest, state => do
      let buf ← readSector sector
      match scanSlots visit sector buf (List.finRange 16) state with
      | .next state' => scanSectors visit rest state'
      | .done result => return .done result

/-- The loop over the clusters of a directory, at most `stepsLeft` of them. -/
def scanChain (visit : σ → Pos → Slot → Step σ β) : ℕ → ℕ → σ → FatM (Step σ β)
  | 0, _, state => return .next state
  | stepsLeft + 1, cluster, state =>
    if vol.validCluster cluster then do
      match ← scanSectors visit (vol.sectorsOf cluster) state with
      | .done result => return .done result
      | .next state' =>
        let next ← vol.nextCluster cluster
        scanChain visit stepsLeft next state'
    else return .next state

def findVisit (target : Name) (_ : Unit) (_ : Pos) (slot : Slot) : Step Unit (Option DirEntry) :=
  visitSlot none () () (if nameOf slot = target then .done (some (entryOf slot)) else .next ()) slot

def findInDir (startCluster : ℕ) (name : Bytes) : FatM (Option DirEntry) := do
  match ← vol.scanChain (findVisit (shortName83 name)) vol.clusterCount startCluster () with
  | .next _ => return none
  | .done result => return result

/-- The visitor of `list_dir`; the state is the items collected so far. -/
def listVisit (items : List DirItem) (_ : Pos) (slot : Slot) : Step (List DirItem) (List DirItem) :=
  visitSlot items items items
    (.next (items ++ [⟨name83ToString (nameOf slot), isDirOf slot⟩])) slot

def listDir (dirCluster : ℕ) : FatM (List DirItem) := do
  match ← vol.scanChain listVisit vol.clusterCount dirCluster [] with
  | .next items => return items
  | .done items => return items

/-- The visitor of `locate_or_free_slot`; the state is the first deleted slot met so far. -/
def slotVisit (target : Name) (firstFree : Option Pos) (pos : Pos) (slot : Slot) :
    Step (Option Pos) (Pos × Option ℕ) :=
  visitSlot (firstFree.getD pos, none) firstFree (firstFree.or (some pos))
    (if nameOf slot = target then .done (pos, some (firstClusterOf slot)) else .next firstFree) slot

/-- `locate_or_free_slot`: the slot of the name with its first cluster, or a slot to create it
in. -/
def locateOrFreeSlot (dirCluster : ℕ) (target : Name) : FatM (Pos × Option ℕ) := do
  match ← vol.scanChain (slotVisit target) vol.clusterCount dirCluster none with
  | .next (some pos) => return (pos, none)
  | .next none => throw .dirFull
  | .done result => return result

def locateVisit (target : Name) (_ : Unit) (pos : Pos) (slot : Slot) :
    Step Unit (Option (Pos × DirEntry)) :=
  visitSlot none () ()
    (if nameOf slot = target then .done (some (pos, entryOf slot)) else .next ()) slot

def locateEntry (dirCluster : ℕ) (name : Bytes) : FatM (Option (Pos × DirEntry)) := do
  match ← vol.scanChain (locateVisit (shortName83 name)) vol.clusterCount dirCluster () with
  | .next _ => return none
  | .done result => return result

/-! ### Paths and reading -/

/-- The walk of `resolve_parent` over the components. -/
def resolveComponents : ℕ → List Bytes → FatM (ℕ × Bytes)
  | _, [] => throw .notFound
  | cluster, [name] => return (cluster, name)
  | cluster, comp :: rest => do
      match ← vol.findInDir cluster comp with
      | none => throw .notFound
      | some entry =>
        if !entry.isDir then throw .notADirectory
        else resolveComponents entry.firstCluster rest

def resolveParent (path : Bytes) : FatM (ℕ × Bytes) :=
  vol.resolveComponents vol.rootCluster (components path)

/-- The sectors of one cluster, as far as bytes remain to be read. -/
def readSectors : List ℕ → ℕ → Bytes → FatM (ℕ × Bytes)
  | [], remaining, data => return (remaining, data)
  | sector :: rest, remaining, data =>
    if remaining = 0 then return (remaining, data)
    else do
      let buf ← readSector sector
      let take := min remaining 512
      readSectors rest (remaining - take) (data ++ (List.ofFn buf).take take)

/-- The loop of `read_entry`. Every turn reads at least one byte, so `fuel = remaining` is never
used up. -/
def readChain : ℕ → ℕ → ℕ → Bytes → FatM Bytes
  | 0, _, _, data => return data
  | fuel + 1, cluster, remaining, data =>
    if 0 < remaining ∧ vol.validCluster cluster then do
      let (remaining', data') ← readSectors (vol.sectorsOf cluster) remaining data
      let next ← vol.nextCluster cluster
      readChain fuel next remaining' data'
    else return data

def readEntry (entry : DirEntry) : FatM Bytes :=
  vol.readChain entry.size entry.firstCluster entry.size []

def readFile (path : Bytes) : FatM Bytes := do
  let (dirCluster, name) ← vol.resolveParent path
  match ← vol.findInDir dirCluster name with
  | none => throw .notFound
  | some entry => if entry.isDir then throw .isADirectory else vol.readEntry entry

def lookup (path : Bytes) : FatM Node := do
  if (trimSlashes path).isEmpty then
    return .dir (← vol.listDir vol.rootCluster)
  else
    let (dirCluster, name) ← vol.resolveParent path
    match ← vol.findInDir dirCluster name with
    | none => throw .notFound
    | some entry =>
      if entry.isDir then return .dir (← vol.listDir entry.firstCluster)
      else return .file (← vol.readEntry entry)

def stat (path : Bytes) : FatM Metadata := do
  if (trimSlashes path).isEmpty then
    return ⟨true, 0, vol.rootCluster⟩
  else
    let (dirCluster, name) ← vol.resolveParent path
    match ← vol.findInDir dirCluster name with
    | none => throw .notFound
    | some entry => return ⟨entry.isDir, entry.size, entry.firstCluster⟩

/-! ### The FAT -/

/-- The loop of `write_fat_entry` over the copies of the FAT. -/
def writeFatCopies (cluster value : ℕ) : List ℕ → FatM Unit
  | [] => return
  | fat :: rest => do
      let buf ← readSector (vol.fatSector fat cluster)
      writeSector (vol.fatSector fat cluster) (putEntry buf cluster value)
      writeFatCopies cluster value rest

def writeFatEntry (cluster value : ℕ) : FatM Unit :=
  vol.writeFatCopies cluster value (List.range vol.numFats)

/-- The inner loop of `alloc_cluster`: the first free entry of the FAT sector just read, or the
first cluster past it. -/
def scanEntries (buf : Sector) (sector : ℕ) : ℕ → ℕ → ℕ × Bool
  | 0, cluster => (cluster, false)
  | fuel + 1, cluster =>
    if cluster < firstDataCluster + vol.clusterCount ∧
        cluster / fatEntriesPerSector = sector - vol.fatStartSector then
      if rawEntry buf cluster &&& fat32EntryMask = 0 then (cluster, true)
      else scanEntries buf sector fuel (cluster + 1)
    else (cluster, false)

/-- The outer loop of `alloc_cluster`. Every turn passes at least one cluster. -/
def allocFrom : ℕ → ℕ → FatM ℕ
  | 0, _ => throw .noSpace
  | fuel + 1, cluster =>
    if cluster < firstDataCluster + vol.clusterCount then do
      let sector := vol.fatStartSector + cluster / fatEntriesPerSector
      let buf ← readSector sector
      match vol.scanEntries buf sector fatEntriesPerSector cluster with
      | (free, true) =>
        vol.writeFatEntry free fat32Eoc
        return free
      | (past, false) => allocFrom fuel past
    else throw .noSpace

def allocCluster : FatM ℕ := vol.allocFrom vol.clusterCount firstDataCluster

/-- The loop of `free_chain`. -/
def freeFrom : ℕ → ℕ → FatM Unit
  | 0, _ => return
  | stepsLeft + 1, cluster =>
    if vol.validCluster cluster then do
      let next ← vol.nextCluster cluster
      vol.writeFatEntry cluster 0
      freeFrom stepsLeft next
    else return

def freeChain (first : ℕ) : FatM Unit := vol.freeFrom vol.clusterCount first

/-- The loop of `alloc_chain`. A failed allocation gives the part already linked back; a failed
link does not. -/
def allocLoop : ℕ → ℕ → ℕ → FatM ℕ
  | 0, first, _ => return first
  | n + 1, first, prev => do
      match ← attempt vol.allocCluster with
      | .error e =>
        if first ≠ 0 then
          let _ ← attempt (vol.freeChain first)
          throw e
        else throw e
      | .ok c =>
        if first = 0 then allocLoop n c c
        else
          vol.writeFatEntry prev c
          allocLoop n first c

def allocChain (n : ℕ) : FatM ℕ := vol.allocLoop n 0 0

/-- The sectors of one cluster, as far as data remains to be written. -/
def writeSectors (data : Bytes) : List ℕ → ℕ → FatM ℕ
  | [], written => return written
  | sector :: rest, written =>
    if data.length ≤ written then return written
    else do
      let take := min (data.length - written) 512
      writeSector sector (padSector ((data.drop written).take take))
      writeSectors data rest (written + take)

/-- The loop of `write_chain`. -/
def writeFrom (data : Bytes) : ℕ → ℕ → ℕ → FatM Unit
  | 0, _, _ => return
  | stepsLeft + 1, cluster, written =>
    if written < data.length ∧ vol.validCluster cluster then do
      let written' ← writeSectors data (vol.sectorsOf cluster) written
      let next ← vol.nextCluster cluster
      writeFrom data stepsLeft next written'
    else return

def writeChain (first : ℕ) (data : Bytes) : FatM Unit := vol.writeFrom data vol.clusterCount first 0

/-! ### Changing the tree -/

def writeDirEntry (pos : Pos) (name : Name) (attr : UInt8) (firstCluster size : ℕ) : FatM Unit := do
  let buf ← readSector pos.1
  writeSector pos.1
    (splice buf (32 * pos.2.1) (fillDirEntry (slotOf buf pos.2) name attr firstCluster size))

def clearDirEntry (pos : Pos) : FatM Unit := do
  let buf ← readSector pos.1
  writeSector pos.1 (splice buf (32 * pos.2.1) (fun _ => 0xE5 : Block 1))

def clusterBytes : ℕ := vol.sectorsPerCluster * 512

/-- Step 2 of `write_file`: the new chain with the data in it, 0 for an empty file. -/
def buildContent (data : Bytes) : FatM ℕ := do
  if data.isEmpty then return 0
  else
    let n := (data.length + vol.clusterBytes - 1) / vol.clusterBytes % 2 ^ 32
    let first ← vol.allocChain n
    match ← attempt (vol.writeChain first data) with
    | .error e =>
      let _ ← attempt (vol.freeChain first)
      throw e
    | .ok _ => return first

def writeFile (path : Bytes) (data : Bytes) : FatM Unit := do
  let (dirCluster, name) ← vol.resolveParent path
  let target := shortName83 name
  let (slot, oldFirst) ← vol.locateOrFreeSlot dirCluster target
  let newFirst ← vol.buildContent data
  match ← attempt (writeDirEntry slot target attrArchive newFirst (data.length % 2 ^ 32)) with
  | .error e =>
    if newFirst ≠ 0 then
      let _ ← attempt (vol.freeChain newFirst)
      throw e
    else throw e
  | .ok _ =>
    match oldFirst with
    | none => return
    | some first =>
      if vol.validCluster first then
        let _ ← attempt (vol.freeChain first)
        return
      else return

/-- The sectors of a new directory after its first one. -/
def zeroSectors : List ℕ → FatM Unit
  | [] => return
  | sector :: rest => do
      writeSector sector (fun _ => 0)
      zeroSectors rest

/-- The first sector of a new directory: its `.` and `..` slots. -/
def dotSector (cluster parent : ℕ) : Sector :=
  let buf : Sector := fun _ => 0
  let buf := splice buf 0 (fillDirEntry (slotOf buf 0) dotName attrDirectory cluster 0)
  let dotdot := if parent = vol.rootCluster then 0 else parent
  splice buf 32 (fillDirEntry (slotOf buf 1) dotdotName attrDirectory dotdot 0)

def initDirCluster (cluster parent : ℕ) : FatM Unit := do
  writeSector (vol.firstSectorOfCluster cluster) (vol.dotSector cluster parent)
  zeroSectors (vol.sectorsOf cluster).tail

def mkdir (path : Bytes) : FatM Unit := do
  let (parentCluster, name) ← vol.resolveParent path
  let target := shortName83 name
  let (slot, existing) ← vol.locateOrFreeSlot parentCluster target
  if existing.isSome then throw .alreadyExists
  else
    let newCluster ← vol.allocCluster
    match ← attempt (vol.initDirCluster newCluster parentCluster) with
    | .error e =>
      let _ ← attempt (vol.freeChain newCluster)
      throw e
    | .ok _ =>
      match ← attempt (writeDirEntry slot target attrDirectory newCluster 0) with
      | .error e =>
        let _ ← attempt (vol.freeChain newCluster)
        throw e
      | .ok _ => return

def dirIsEmpty (dirCluster : ℕ) : FatM Bool := do
  let items ← vol.listDir dirCluster
  return items.all fun item => item.name == ['.'] || item.name == ['.', '.']

def unlink (path : Bytes) : FatM Unit := do
  let (dirCluster, name) ← vol.resolveParent path
  match ← vol.locateEntry dirCluster name with
  | none => throw .notFound
  | some (pos, entry) =>
    if entry.isDir then throw .isADirectory
    else
      clearDirEntry pos
      if entry.firstCluster ≠ 0 then vol.freeChain entry.firstCluster else return

def rmdir (path : Bytes) : FatM Unit := do
  let (dirCluster, name) ← vol.resolveParent path
  match ← vol.locateEntry dirCluster name with
  | none => throw .notFound
  | some (pos, entry) =>
    if !entry.isDir then throw .notADirectory
    else if !(← vol.dirIsEmpty entry.firstCluster) then throw .notEmpty
    else
      clearDirEntry pos
      vol.freeChain entry.firstCluster

end Fat32

end Ferros.Fat
