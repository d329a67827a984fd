import GinnOS.Ext2.Types

/-! # Block device and byte-range access (`fs/ext2/ext2_io.c`)

A device is its media bytes together with the set of sectors whose access fails;
a healthy device (`Healthy`) is what "no I/O errors" means.  The volume carries
the cached superblock and the geometry fields of `ext2_volume_t`.  Its scratch
buffers are local values here: every C function fills a scratch buffer right
before it uses it, and no function called in between writes the same one.

The two laws of the module are `readAbsBytes_eq` and `writeAbsBytes_eq`: a byte
range that ends at or below 4 GiB, and none of whose sectors fails, is read and
written exactly, whatever its alignment to sectors (`byte_ranges_are_exact`).
-/

namespace GinnOS.Ext2

open Lib Lib.Buf

variable {disk : BlockDevice} {count byteOffset size chunk : Nat}

/-- The media of a block device, and the sectors that cannot be accessed. -/
structure BlockDevice where
  data : Buf
  bad : Nat → Bool

namespace BlockDevice

/-- No access to the device fails. -/
def Healthy (disk : BlockDevice) : Prop := ∀ lba, disk.bad lba = false

/-- No sector with a byte of `[lo, hi)` fails. -/
def Serves (disk : BlockDevice) (lo hi : Nat) : Prop :=
  ∀ lba, sectorSize * lba < hi → lo < sectorSize * lba + sectorSize → disk.bad lba = false

/-- Some sector of `[start, start + count)` cannot be accessed. -/
def faulty (disk : BlockDevice) (start count : Nat) : Bool :=
  (List.range count).any fun k => disk.bad (start + k)

/-- `block_device_read`. -/
def read (disk : BlockDevice) (startBlock blockCount : Nat) : Option Buf :=
  if blockCount = 0 ∨ disk.faulty startBlock blockCount then none
  else some (clip (sectorSize * blockCount) (shift disk.data (sectorSize * startBlock)))

/-- `block_device_write`. -/
def write (disk : BlockDevice) (startBlock blockCount : Nat) (src : Buf) : Bool × BlockDevice :=
  if blockCount = 0 ∨ disk.faulty startBlock blockCount then (false, disk)
  else (true, { disk with
    data := splice disk.data (sectorSize * startBlock) (sectorSize * blockCount) src })

theorem Healthy.not_faulty (healthy : disk.Healthy) (start count : Nat) :
    disk.faulty start count = false := by
  simp [faulty, healthy _]

theorem Healthy.read_eq (healthy : disk.Healthy)
    (positive : 0 < count) (start : Nat) :
    disk.read start count =
      some (clip (sectorSize * count) (shift disk.data (sectorSize * start))) := by
  simp [read, healthy.not_faulty, Nat.ne_of_gt positive]

theorem Healthy.write_eq (healthy : disk.Healthy)
    (positive : 0 < count) (start : Nat) (src : Buf) :
    disk.write start count src = (true, { disk with
      data := splice disk.data (sectorSize * start) (sectorSize * count) src }) := by
  simp [write, healthy.not_faulty, Nat.ne_of_gt positive]

theorem Healthy.serves (healthy : disk.Healthy) (lo hi : Nat) : disk.Serves lo hi := fun lba _ _ => healthy lba

theorem read_one {lba : Nat} (fine : disk.bad lba = false) :
    disk.read lba 1 = some (clip (sectorSize * 1) (shift disk.data (sectorSize * lba))) := by
  simp [read, faulty, fine]

theorem write_one {lba : Nat} (fine : disk.bad lba = false) (src : Buf) :
    disk.write lba 1 src = (true, { disk with data := splice disk.data (sectorSize * lba) (sectorSize * 1) src }) := by
  simp [write, faulty, fine]

/-- The sector in which a range starts. -/
theorem Serves.first (serves : disk.Serves byteOffset (byteOffset + (size + 1))) :
    disk.bad (byteOffset / sectorSize) = false := by
  have address := Nat.div_add_mod byteOffset sectorSize
  have below : byteOffset % sectorSize < sectorSize := Nat.mod_lt _ (by decide)
  exact serves _ (by omega) (by omega)

theorem Serves.rest (serves : disk.Serves byteOffset (byteOffset + size)) (bounded : chunk ≤ size) :
    disk.Serves (byteOffset + chunk) (byteOffset + chunk + (size - chunk)) :=
  fun lba low high => serves lba (by omega) (by omega)

end BlockDevice

/-! ## Byte ranges -/

/-- The loop of `read_abs_bytes`; `done` bytes of `dst` are filled already. -/
def readAbsBytesLoop (disk : BlockDevice) : (fuel byteOffset size done : Nat) → Buf → Option Buf
  | _, _, 0, _, dst => some dst
  | 0, _, _ + 1, _, _ => none
  | fuel + 1, byteOffset, size + 1, done, dst =>
    let lba := byteOffset / sectorSize
    let offset := byteOffset % sectorSize
    let chunk := min (sectorSize - offset) (size + 1)
    match disk.read lba 1 with
    | none => none
    | some sector =>
      readAbsBytesLoop disk fuel (u32 (byteOffset + chunk)) (size + 1 - chunk) (done + chunk)
        (splice dst done chunk (shift sector offset))

/-- `read_abs_bytes`.  A round of the loop consumes a byte, so `size` rounds suffice. -/
def readAbsBytes (disk : BlockDevice) (byteOffset size : Nat) : Option Buf :=
  readAbsBytesLoop disk size byteOffset size 0 fun _ => 0

/-- The loop of `write_abs_bytes`. -/
def writeAbsBytesLoop : (fuel : Nat) → BlockDevice → (byteOffset size : Nat) → Buf → Bool × BlockDevice
  | _, disk, _, 0, _ => (true, disk)
  | 0, disk, _, _ + 1, _ => (false, disk)
  | fuel + 1, disk, byteOffset, size + 1, src =>
    let lba := byteOffset / sectorSize
    let offset := byteOffset % sectorSize
    let chunk := min (sectorSize - offset) (size + 1)
    if offset = 0 ∧ chunk = sectorSize then
      match disk.write lba 1 src with
      | (false, disk') => (false, disk')
      | (true, disk') =>
        writeAbsBytesLoop fuel disk' (u32 (byteOffset + chunk)) (size + 1 - chunk) (shift src chunk)
    else
      match disk.read lba 1 with
      | none => (false, disk)
      | some sector =>
        match disk.write lba 1 (splice sector offset chunk src) with
        | (false, disk') => (false, disk')
        | (true, disk') =>
          writeAbsBytesLoop fuel disk' (u32 (byteOffset + chunk)) (size + 1 - chunk)
            (shift src chunk)

def writeAbsBytes (disk : BlockDevice) (byteOffset size : Nat) (src : Buf) : Bool × BlockDevice :=
  writeAbsBytesLoop size disk byteOffset size src

/-- The next byte offset does not wrap unless the range ends there. -/
theorem u32_next (fits : byteOffset + size ≤ 4294967296)
    (more : chunk < size) : u32 (byteOffset + chunk) = byteOffset + chunk :=
  u32_of_lt (by omega)

theorem readAbsBytesLoop_eq (fuel : Nat) :
    ∀ (byteOffset size done : Nat) (dst : Buf), disk.Serves byteOffset (byteOffset + size) → size ≤ fuel →
      byteOffset + size ≤ 4294967296 →
      readAbsBytesLoop disk fuel byteOffset size done dst =
        some (splice dst done size (shift disk.data byteOffset)) := by
  induction fuel with
  | zero =>
    intro byteOffset size done dst serves enough fits
    obtain rfl : size = 0 := by omega
    simp [readAbsBytesLoop]
  | succ fuel ih =>
    intro byteOffset size done dst serves enough fits
    cases size with
    | zero => simp [readAbsBytesLoop]
    | succ size =>
      simp only [readAbsBytesLoop, BlockDevice.read_one serves.first]
      generalize chunkEq : min (sectorSize - byteOffset % sectorSize) (size + 1) = chunk
      have below : byteOffset % sectorSize < sectorSize := Nat.mod_lt _ (by decide)
      have bounded : chunk ≤ size + 1 := by omega
      -- The chunk that was just copied, seen as bytes of the media.
      have copied : splice dst done chunk (shift (clip (sectorSize * 1)
          (shift disk.data (sectorSize * (byteOffset / sectorSize)))) (byteOffset % sectorSize)) =
          splice dst done chunk (shift disk.data byteOffset) := by
        funext k
        by_cases within : done ≤ k ∧ k < done + chunk
        · rw [splice_inside within.1 within.2, splice_inside within.1 within.2]
          simp only [shift]
          rw [clip_of_lt _ (by omega)]
          have address := Nat.div_add_mod byteOffset sectorSize
          exact congrArg disk.data (by omega)
        · rw [splice_outside (by omega), splice_outside (by omega)]
      rw [copied]
      by_cases last : chunk = size + 1
      · subst last
        simp [readAbsBytesLoop]
      · rw [u32_next fits (by omega), ih _ _ _ _ (serves.rest bounded) (by omega) (by omega)]
        have shifted : shift disk.data (byteOffset + chunk) = shift (shift disk.data byteOffset) chunk := by
          funext k
          simp only [shift, Nat.add_assoc]
        rw [shifted, splice_splice_shift, Nat.add_sub_cancel' bounded]

/-- `read_abs_bytes` returns the bytes of the range. -/
theorem readAbsBytes_eq (serves : disk.Serves byteOffset (byteOffset + size))
    (fits : byteOffset + size ≤ 4294967296) :
    readAbsBytes disk byteOffset size = some (clip size (shift disk.data byteOffset)) := by
  rw [readAbsBytes, readAbsBytesLoop_eq size _ _ _ _ serves (Nat.le_refl size) fits]
  congr 1
  funext k
  simp [splice, clip]

/-- Rewriting one sector with a chunk changed inside it is changing the chunk. -/
theorem splice_sector {data src : Buf} {lba offset : Nat} (inside : offset + chunk ≤ sectorSize) :
    splice data (sectorSize * lba) (sectorSize * 1)
        (splice (clip (sectorSize * 1) (shift data (sectorSize * lba))) offset chunk src) =
      splice data (sectorSize * lba + offset) chunk src := by
  funext k
  by_cases within : sectorSize * lba ≤ k ∧ k < sectorSize * lba + sectorSize * 1
  · rw [splice_inside within.1 within.2]
    by_cases copied : sectorSize * lba + offset ≤ k ∧ k < sectorSize * lba + offset + chunk
    · rw [splice_inside (by omega) (by omega), splice_inside copied.1 copied.2]
      congr 1
      omega
    · rw [splice_outside (by omega), splice_outside (by omega), clip_of_lt _ (by omega)]
      simp only [shift]
      congr 1
      omega
  · rw [splice_outside (by omega), splice_outside (by omega)]

theorem writeAbsBytesLoop_eq (fuel : Nat) :
    ∀ (disk : BlockDevice) (byteOffset size : Nat) (src : Buf), disk.Serves byteOffset (byteOffset + size) → size ≤ fuel →
      byteOffset + size ≤ 4294967296 →
      writeAbsBytesLoop fuel disk byteOffset size src =
        (true, { disk with data := splice disk.data byteOffset size src }) := by
  induction fuel with
  | zero =>
    intro disk byteOffset size src _ enough _
    obtain rfl : size = 0 := by omega
    simp [writeAbsBytesLoop]
  | succ fuel ih =>
    intro disk byteOffset size src serves enough fits
    cases size with
    | zero => simp [writeAbsBytesLoop]
    | succ size =>
      simp only [writeAbsBytesLoop, BlockDevice.read_one serves.first, BlockDevice.write_one serves.first]
      generalize chunkEq : min (sectorSize - byteOffset % sectorSize) (size + 1) = chunk
      have below : byteOffset % sectorSize < sectorSize := Nat.mod_lt _ (by decide)
      have inside : byteOffset % sectorSize + chunk ≤ sectorSize := by omega
      have bounded : chunk ≤ size + 1 := by omega
      have address : sectorSize * (byteOffset / sectorSize) + byteOffset % sectorSize = byteOffset :=
        Nat.div_add_mod byteOffset sectorSize
      -- Both branches leave the media with the chunk written, and go on from there.
      have rest : writeAbsBytesLoop fuel { disk with data := splice disk.data byteOffset chunk src }
          (u32 (byteOffset + chunk)) (size + 1 - chunk) (shift src chunk) =
          (true, { disk with data := splice disk.data byteOffset (size + 1) src }) := by
        by_cases last : chunk = size + 1
        · subst last
          simp [writeAbsBytesLoop]
        · have left : BlockDevice.Serves { disk with data := splice disk.data byteOffset chunk src } _ _ := serves.rest bounded
          rw [u32_next fits (by omega), ih _ _ _ _ left (by omega) (by omega)]
          simp only [splice_splice_shift, Nat.add_sub_cancel' bounded]
      split
      · next whole =>
        rw [whole.1, Nat.add_zero] at address
        rw [address, Nat.mul_one, ← whole.2]
        exact rest
      · rw [splice_sector inside, address]
        exact rest

/-- `write_abs_bytes` changes exactly the bytes of the range. -/
theorem writeAbsBytes_eq (serves : disk.Serves byteOffset (byteOffset + size))
    (fits : byteOffset + size ≤ 4294967296) (src : Buf) :
    writeAbsBytes disk byteOffset size src =
      (true, { disk with data := splice disk.data byteOffset size src }) :=
  writeAbsBytesLoop_eq size disk byteOffset size src serves (Nat.le_refl size) fits

/-- A byte range is written and read exactly, and reading any range after the write gives the data
on the overlap and the old bytes elsewhere. -/
theorem byte_ranges_are_exact (disk : BlockDevice) (offset size : Nat) (src : Buf) (fits : offset + size ≤ 4294967296)
    (serves : disk.Serves offset (offset + size)) :
    ∃ after : BlockDevice, writeAbsBytes disk offset size src = (true, after) ∧
      (∀ k, after.data k = if offset ≤ k ∧ k < offset + size then src (k - offset) else disk.data k) ∧
      (∃ bytes, readAbsBytes disk offset size = some bytes ∧ ∀ k < size, bytes k = disk.data (offset + k)) ∧
      ∀ offset' size', offset' + size' ≤ 4294967296 → disk.Serves offset' (offset' + size') →
        ∃ bytes, readAbsBytes after offset' size' = some bytes ∧ ∀ k < size', bytes k =
          if offset ≤ offset' + k ∧ offset' + k < offset + size then src (offset' + k - offset) else disk.data (offset' + k) := by
  refine ⟨_, writeAbsBytes_eq serves fits src, fun k => rfl, ⟨_, readAbsBytes_eq serves fits, fun k below => ?_⟩,
    fun offset' size' fits' serves' => ?_⟩
  · rw [clip_of_lt _ below, shift]
  · have still : BlockDevice.Serves { disk with data := splice disk.data offset size src } offset' (offset' + size') := serves'
    refine ⟨_, readAbsBytes_eq still fits', fun k below => ?_⟩
    rw [clip_of_lt _ below]
    rfl

/-- The last byte that a 32-bit offset reaches, on a device that ends there. -/
theorem last_byte_is_exact : ∃ after : BlockDevice,
    writeAbsBytes ⟨fun _ => 0, fun lba => decide (8388608 ≤ lba)⟩ 4294967295 1 (fun _ => 7) = (true, after) ∧
      after.data 4294967295 = 7 := by
  have serves : BlockDevice.Serves ⟨fun _ => 0, fun lba => decide (8388608 ≤ lba)⟩ 4294967295 (4294967295 + 1) := by
    intro lba low _
    rw [sectorSize] at low
    exact decide_eq_false (by omega)
  obtain ⟨after, written, stored, _⟩ := byte_ranges_are_exact _ 4294967295 1 (fun _ => 7) (Nat.le_refl _) serves
  exact ⟨after, written, stored 4294967295⟩

/-! ## Volume -/

/-- `ext2_volume_t`, without its scratch buffers. -/
structure Volume where
  disk : BlockDevice
  superblock : Superblock
  blockSize : Nat
  sectorsPerBlock : Nat
  inodeSize : Nat
  firstDataBlock : Nat
  blockCount : Nat
  inodeCount : Nat
  firstNonReservedInode : Nat
  blockGroupCount : Nat
  blocksPerGroup : Nat
  inodesPerGroup : Nat
  bgdtStartBlock : Nat

def readBlock (volume : Volume) (block : Nat) : Option Buf :=
  if volume.sectorsPerBlock = 0 then none
  else volume.disk.read (u32 (block * volume.sectorsPerBlock)) (volume.sectorsPerBlock % 256)

def writeBlock (volume : Volume) (block : Nat) (src : Buf) : Bool × Volume :=
  if volume.sectorsPerBlock = 0 then (false, volume)
  else
    let (done, disk) :=
      volume.disk.write (u32 (block * volume.sectorsPerBlock)) (volume.sectorsPerBlock % 256) src
    (done, { volume with disk := disk })

/-- The byte offset of a group descriptor, as `read_group_desc` computes it. -/
def groupDescOffset (volume : Volume) (group : Nat) : Nat :=
  u32 (u32 (volume.bgdtStartBlock * volume.blockSize) + u32 (group * GroupDesc.byteSize))

def readGroupDesc (volume : Volume) (group : Nat) : Option GroupDesc :=
  (readAbsBytes volume.disk (groupDescOffset volume group) GroupDesc.byteSize).map GroupDesc.decode

def writeGroupDesc (volume : Volume) (group : Nat) (desc : GroupDesc) : Bool × Volume :=
  if group ≥ volume.blockGroupCount then (false, volume)
  else
    let (done, disk) := writeAbsBytes volume.disk (groupDescOffset volume group)
      GroupDesc.byteSize (ofList desc.encode)
    (done, { volume with disk := disk })

def writeSuperblock (volume : Volume) : Bool × Volume :=
  let (done, disk) := writeAbsBytes volume.disk superblockOffset Superblock.byteSize
    (ofList volume.superblock.encode)
  (done, { volume with disk := disk })

/-- The common body of `read_inode_bitmap` and `read_block_bitmap`. -/
def readBitmap (bitmapBlock : GroupDesc → UInt32) (volume : Volume) (group : Nat) : Option Buf :=
  if group ≥ volume.blockGroupCount then none
  else
    match readGroupDesc volume group with
    | none => none
    | some desc => readBlock volume (bitmapBlock desc).toNat

/-- The common body of `write_inode_bitmap` and `write_block_bitmap`. -/
def writeBitmap (bitmapBlock : GroupDesc → UInt32) (volume : Volume) (group : Nat) (bitmap : Buf) :
    Bool × Volume :=
  if group ≥ volume.blockGroupCount then (false, volume)
  else
    match readGroupDesc volume group with
    | none => (false, volume)
    | some desc => writeBlock volume (bitmapBlock desc).toNat bitmap

def readInodeBitmap : Volume → Nat → Option Buf := readBitmap GroupDesc.bgInodeBitmap

def writeInodeBitmap : Volume → Nat → Buf → Bool × Volume := writeBitmap GroupDesc.bgInodeBitmap

def readBlockBitmap : Volume → Nat → Option Buf := readBitmap GroupDesc.bgBlockBitmap

def writeBlockBitmap : Volume → Nat → Buf → Bool × Volume := writeBitmap GroupDesc.bgBlockBitmap

end GinnOS.Ext2
