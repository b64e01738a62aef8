import BiosKernel.Disk.Driver

namespace BiosKernel
open MachineInt
set_option autoImplicit true

/-- Bytes that one sector transfer of the driver covers. -/
def transferSize (size : Nat) : Nat := sectorSize * u32 (upperDivide size sectorSize)

/-- `read_disk` copies the addressed bytes, whatever is on the disk and around the buffers. -/
def ReadsWindow (drives : List Disk) (diskId offset size : Nat) : Prop :=
  ∀ content heap buffer, ∃ d ∈ drives, d.diskId = diskId ∧
    ∃ out, readDisk ⟨drives, content⟩ heap diskId offset size buffer = some out ∧
      ∀ k < size, out k = content d.port (offset + k)

/-- `write_disk` changes the addressed bytes and no others, and `read_disk` finds them again. -/
def WritesWindow (drives : List Disk) (diskId offset size : Nat) : Prop :=
  ∀ content heap buffer, ∃ d ∈ drives, d.diskId = diskId ∧
    ∃ s heap', writeDisk ⟨drives, content⟩ heap diskId offset size buffer = some (s, heap') ∧
      (∀ k < size, s.content d.port (offset + k) = buffer k) ∧
      (∀ x, x < offset ∨ offset + size ≤ x → s.content d.port x = content d.port x) ∧
      (∀ p ≠ d.port, s.content p = content p) ∧
      ∀ around before, ∃ out, readDisk s around diskId offset size before = some out ∧
        ∀ k < size, out k = buffer k

/-- What the temporary buffer holds after the transfer. -/
def transferred (content : Nat → UInt8) (heap : Int → UInt8) (offset size : Nat) : Int → UInt8 :=
  readAhci content (offset / sectorSize) (upperDivide size sectorSize)
    (mallocTemp heap (u64 (upperDivide size sectorSize * sectorSize)))

theorem transferred_of_lt (content : Nat → UInt8) (heap : Int → UInt8) (offset : Nat)
    (h : i < transferSize size) :
    transferred content heap offset size i = content (sectorSize * (offset / sectorSize) + i) := by
  have hm := memcpy_of_lt (mallocTemp heap (u64 (upperDivide size sectorSize * sectorSize)))
    (fun i => content (sectorSize * (offset / sectorSize) + i.toNat)) 0 h
  rw [Int.zero_add, Int.toNat_natCast] at hm
  exact hm

theorem transferred_of_le (content : Nat → UInt8) (offset : Nat) (h : transferSize size ≤ i) :
    transferred content (fun _ => 0) offset size i = 0 := by
  have hm := memcpy_apart (i := i)
    (mallocTemp (fun _ => 0) (u64 (upperDivide size sectorSize * sectorSize)))
    (fun i => content (sectorSize * (offset / sectorSize) + i.toNat)) 0 (transferSize size)
    (.inr (by omega))
  refine hm.trans ?_
  rw [mallocTemp, memcpy]
  split <;> rfl

theorem readDisk_eq (hd : findDisk drives diskId = some d) (content : Nat → Nat → UInt8)
    (heap : Int → UInt8) (offset size : Nat) (buffer : Int → UInt8) :
    readDisk ⟨drives, content⟩ heap diskId offset size buffer = some (memcpy buffer 0
      (fun i => transferred (content d.port) heap offset size ((offset % sectorSize : Nat) + i))
      size) := by
  rw [readDisk, hd]
  rfl

theorem readDisk_apply (hd : findDisk drives diskId = some d) (content : Nat → Nat → UInt8)
    (heap : Int → UInt8) (offset size : Nat) (buffer : Int → UInt8) :
    ∃ out, readDisk ⟨drives, content⟩ heap diskId offset size buffer = some out ∧
      ∀ k < size, out k = transferred (content d.port) heap offset size
        (offset % sectorSize + k : Nat) := by
  refine ⟨_, readDisk_eq hd content heap offset size buffer, ?_⟩
  intro k hk
  have hm := memcpy_of_lt buffer
    (fun i => transferred (content d.port) heap offset size ((offset % sectorSize : Nat) + i)) 0 hk
  rw [Int.zero_add] at hm
  exact hm

theorem sector_add (offset k : Nat) :
    sectorSize * (offset / sectorSize) + (offset % sectorSize + k) = offset + k := by
  rw [← Nat.add_assoc, Nat.div_add_mod]

theorem readDisk_window (hd : findDisk drives diskId = some d)
    (h : offset % sectorSize + size ≤ transferSize size) (content : Nat → Nat → UInt8)
    (heap : Int → UInt8) (buffer : Int → UInt8) :
    ∃ out, readDisk ⟨drives, content⟩ heap diskId offset size buffer = some out ∧
      ∀ k < size, out k = content d.port (offset + k) := by
  obtain ⟨out, ho, hk⟩ := readDisk_apply hd content heap offset size buffer
  refine ⟨out, ho, ?_⟩
  intro k hlt
  rw [hk k hlt, transferred_of_lt _ _ _ (by omega), sector_add]

/-- A window that runs past the transferred sectors ends in bytes that were never on the disk. -/
theorem ReadsWindow.covers (h : ReadsWindow drives diskId offset size) (hs : 1 ≤ size)
    (hd : ∃ d ∈ drives, d.diskId = diskId) :
    offset % sectorSize + size ≤ transferSize size := by
  obtain ⟨d, _, hd, _⟩ := findDisk_registered hd
  apply Nat.le_of_not_lt
  intro hlt
  obtain ⟨e, _, _, out, ho, hout⟩ := h (fun _ _ => 1) (fun _ => 0) (fun _ => 0)
  obtain ⟨out', ho', hout'⟩ :=
    readDisk_apply hd (fun _ _ => 1) (fun _ => 0) offset size (fun _ => 0)
  cases ho.symm.trans ho'
  have hk := hout (size - 1) (by omega)
  rw [hout' (size - 1) (by omega), transferred_of_le _ _ (by omega)] at hk
  exact absurd hk (by decide)

theorem readsWindow_iff (hd : ∃ d ∈ drives, d.diskId = diskId) (hs : 1 ≤ size) :
    ReadsWindow drives diskId offset size ↔
      offset % sectorSize + size ≤ sectorSize * u32 (upperDivide size sectorSize) := by
  refine ⟨fun h => h.covers hs hd, ?_⟩
  intro h content heap buffer
  obtain ⟨d, hm, hd, hid⟩ := findDisk_registered hd
  exact ⟨d, hm, hid, readDisk_window hd h content heap buffer⟩

theorem readsWindow_superblock : ReadsWindow [⟨0, .ahciSata, 0⟩] 0 1024 1024 :=
  (readsWindow_iff ⟨_, List.mem_cons_self, rfl⟩ (by decide)).mpr (by decide)

/-- Two bytes across a sector boundary: one sector is fetched, the second byte is beyond it. -/
theorem read_across_sectors_misses : ¬ ReadsWindow [⟨0, .ahciSata, 0⟩] 0 511 2 := by
  intro h
  have hc := h.covers (by decide) ⟨_, List.mem_cons_self, rfl⟩
  exact absurd hc (by decide)

/-- The temporary buffer as `write_disk` sends it back. -/
def patched (content : Nat → UInt8) (heap : Int → UInt8) (offset size : Nat)
    (buffer : Int → UInt8) : Int → UInt8 :=
  memcpy (transferred content heap offset size)
    ((offset / sectorSize * 512 : Nat) - (offset : Nat)) buffer size

theorem writeDisk_eq (hd : findDisk drives diskId = some d) (content : Nat → Nat → UInt8)
    (heap : Int → UInt8) (offset size : Nat) (buffer : Int → UInt8) :
    writeDisk ⟨drives, content⟩ heap diskId offset size buffer = some
      (⟨drives, Function.update content d.port (writeAhci (content d.port) (offset / sectorSize)
        (upperDivide size sectorSize) (patched (content d.port) heap offset size buffer))⟩,
      patched (content d.port) heap offset size buffer) := by
  rw [writeDisk, hd]
  rfl

/-- The copy starts `offset % 512` bytes before the buffer. -/
theorem patched_eq (content : Nat → UInt8) (heap : Int → UInt8) (offset size : Nat)
    (buffer : Int → UInt8) (i : Nat) : patched content heap offset size buffer i =
      if i + offset % sectorSize < size then buffer (i + offset % sectorSize : Nat)
      else transferred content heap offset size i := by
  have hdm := Nat.div_add_mod offset sectorSize
  rw [patched, memcpy]
  rw [sectorSize] at hdm ⊢
  by_cases h : i + offset % 512 < size
  · rw [if_pos h, if_pos (by omega)]
    congr 1
    omega
  · rw [if_neg h, if_neg (by omega)]

theorem writeAhci_inside (content : Nat → UInt8) (buf : Int → UInt8) (start : Nat)
    (h : i < transferSize size) :
    writeAhci content start (upperDivide size sectorSize) buf (sectorSize * start + i) = buf i := by
  rw [transferSize] at h
  rw [writeAhci, if_pos (by omega)]
  congr 1
  omega

theorem writeAhci_outside (content : Nat → UInt8) (buf : Int → UInt8) (start : Nat)
    (h : x < sectorSize * start ∨ sectorSize * start + transferSize size ≤ x) :
    writeAhci content start (upperDivide size sectorSize) buf x = content x := by
  rw [transferSize] at h
  rw [writeAhci, if_neg (by omega)]

theorem writeDisk_apply (hd : findDisk drives diskId = some d) (content : Nat → Nat → UInt8)
    (heap : Int → UInt8) (offset size : Nat) (buffer : Int → UInt8) :
    ∃ s heap', writeDisk ⟨drives, content⟩ heap diskId offset size buffer = some (s, heap') ∧
      s.listDrives = drives ∧ (∀ p ≠ d.port, s.content p = content p) ∧
      (∀ i < transferSize size, s.content d.port (sectorSize * (offset / sectorSize) + i) =
        patched (content d.port) heap offset size buffer i) ∧
      ∀ x, x < sectorSize * (offset / sectorSize) ∨
        sectorSize * (offset / sectorSize) + transferSize size ≤ x →
        s.content d.port x = content d.port x := by
  refine ⟨_, _, writeDisk_eq hd content heap offset size buffer, rfl, ?_, ?_, ?_⟩
  · intro p hp
    exact Function.update_of_ne hp ..
  · intro i hi
    dsimp only
    rw [Function.update_self, writeAhci_inside _ _ _ hi]
  · intro x hx
    dsimp only
    rw [Function.update_self, writeAhci_outside _ _ _ hx]

theorem writesWindow_of_aligned (hd : findDisk drives diskId = some d)
    (ha : offset % sectorSize = 0) (hs : size ≤ transferSize size) (content : Nat → Nat → UInt8)
    (heap buffer : Int → UInt8) :
    ∃ s heap', writeDisk ⟨drives, content⟩ heap diskId offset size buffer = some (s, heap') ∧
      s.listDrives = drives ∧ (∀ k < size, s.content d.port (offset + k) = buffer k) ∧
      (∀ x, x < offset ∨ offset + size ≤ x → s.content d.port x = content d.port x) ∧
      ∀ p ≠ d.port, s.content p = content p := by
  obtain ⟨s, heap', hw, hl, hp, hin, hout⟩ := writeDisk_apply hd content heap offset size buffer
  have hstart : sectorSize * (offset / sectorSize) = offset := by
    have hdm := Nat.div_add_mod offset sectorSize
    omega
  rw [hstart] at hin hout
  refine ⟨s, heap', hw, hl, ?_, ?_, hp⟩
  · intro k hk
    rw [hin k (by omega), patched_eq, ha, Nat.add_zero, if_pos hk]
  · intro x hx
    by_cases hx' : x < offset ∨ offset + transferSize size ≤ x
    · exact hout x hx'
    · obtain ⟨i, rfl⟩ : ∃ i, x = offset + i := ⟨x - offset, by omega⟩
      rw [hin i (by omega), patched_eq, ha, if_neg (by omega), transferred_of_lt _ _ _ (by omega),
        hstart]

theorem WritesWindow.aligned (h : WritesWindow drives diskId offset size) (hs : 1 ≤ size)
    (hd : ∃ d ∈ drives, d.diskId = diskId) : offset % sectorSize = 0 := by
  obtain ⟨d, _, hd, _⟩ := findDisk_registered hd
  apply Classical.byContradiction
  intro hr
  obtain ⟨e, _, _, s, heap', hw, hb, _⟩ :=
    h (fun _ _ => 0) (fun _ => 0) (fun k => if k = 0 then 1 else 0)
  obtain ⟨s', heap'', hw', _, hp, hin, hout⟩ := writeDisk_apply hd (fun _ _ => 0) (fun _ => 0)
    offset size (fun k => if k = 0 then 1 else 0)
  cases hw.symm.trans hw'
  have hone := hb 0 (by omega)
  have hzero : s.content d.port offset = 0 := by
    have hx := sector_add offset 0
    rw [Nat.add_zero, Nat.add_zero] at hx
    by_cases hlt : offset % sectorSize < transferSize size
    · rw [← hx, hin _ hlt, patched_eq]
      split
      · rw [if_neg (by omega)]
      · rw [transferred_of_lt _ _ _ hlt]
    · exact hout offset (.inr (by omega))
  by_cases he : e.port = d.port
  · rw [he, Nat.add_zero, hzero] at hone
    exact absurd hone (by decide)
  · rw [hp e.port he] at hone
    cases hone

theorem WritesWindow.covers (h : WritesWindow drives diskId offset size) (hs : 1 ≤ size)
    (hd : ∃ d ∈ drives, d.diskId = diskId) : size ≤ transferSize size := by
  have ha := h.aligned hs hd
  obtain ⟨d, _, hd, _⟩ := findDisk_registered hd
  apply Nat.le_of_not_lt
  intro hlt
  obtain ⟨e, _, _, s, heap', hw, hb, _⟩ := h (fun _ _ => 0) (fun _ => 0) (fun _ => 1)
  obtain ⟨s', heap'', hw', _, hp, _, hout⟩ := writeDisk_apply hd (fun _ _ => 0) (fun _ => 0)
    offset size (fun _ => 1)
  cases hw.symm.trans hw'
  have hone := hb (size - 1) (by omega)
  by_cases he : e.port = d.port
  · have hdm := Nat.div_add_mod offset sectorSize
    rw [he, hout _ (.inr (by omega))] at hone
    exact absurd hone (by decide)
  · rw [hp e.port he] at hone
    cases hone

theorem writesWindow_iff (hd : ∃ d ∈ drives, d.diskId = diskId) (hs : 1 ≤ size) :
    WritesWindow drives diskId offset size ↔ offset % sectorSize = 0 ∧
      size ≤ sectorSize * u32 (upperDivide size sectorSize) := by
  refine ⟨fun h => ⟨h.aligned hs hd, h.covers hs hd⟩, ?_⟩
  rintro ⟨ha, hc⟩ content heap buffer
  obtain ⟨d, hm, hd, hid⟩ := findDisk_registered hd
  obtain ⟨⟨_, content'⟩, heap', hw, rfl, hb, hx, hp⟩ :=
    writesWindow_of_aligned hd ha hc content heap buffer
  refine ⟨d, hm, hid, _, heap', hw, hb, hx, hp, ?_⟩
  intro around before
  have hcov : offset % sectorSize + size ≤ transferSize size := by
    rw [ha, Nat.zero_add]
    exact hc
  obtain ⟨out, ho, hout⟩ := readDisk_window hd hcov content' around before
  refine ⟨out, ho, ?_⟩
  intro k hk
  exact (hout k hk).trans (hb k hk)

theorem writesWindow_sector : WritesWindow [⟨0, .ahciSata, 0⟩] 0 1024 700 :=
  (writesWindow_iff ⟨_, List.mem_cons_self, rfl⟩ (by decide)).mpr (by decide)

/-- One byte at offset 1 is copied to the place before the sector buffer and never written. -/
theorem write_unaligned_misses : ¬ WritesWindow [⟨0, .ahciSata, 0⟩] 0 1 1 := by
  intro h
  have ha := h.aligned (by decide) ⟨_, List.mem_cons_self, rfl⟩
  exact absurd ha (by decide)

end BiosKernel
