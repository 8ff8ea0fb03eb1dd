import VimOS.Library.ByteMemory
import VimOS.Paging.Address

/-!
# Loading the kernel image

`CalcLoadAddressRange` and `CopyLoadSegments` of `boot/boot.c`. The first computes the range that
`BootMain` reserves for the kernel, the second copies the segments of the file to where the kernel
runs. Both go through the program headers on their own and read them from the file's buffer; the
copy reads each header when it comes to it, after the segments before have been written.
-/

namespace VimOS

open ByteMemory

/-! ## Program headers -/

/-- `Elf_Phdr`, as far as it is read; `p_type` is an `Elf_Half`. -/
structure ElfPhdr where
  pType : BitVec 16
  pOffset : Addr
  pVaddr : Addr
  pFilesz : BitVec 64
  pMemsz : BitVec 64
  deriving DecidableEq

/-- `PT_LOAD`. -/
def ptLoad : BitVec 16 := 1

/-- The program header at an address. -/
def readPhdr (mem : Bytes) (a : Addr) : ElfPhdr where
  pType := .ofNat 16 (load mem a 2)
  pOffset := .ofNat 64 (load mem (a + 8) 8)
  pVaddr := .ofNat 64 (load mem (a + 16) 8)
  pFilesz := .ofNat 64 (load mem (a + 32) 8)
  pMemsz := .ofNat 64 (load mem (a + 40) 8)

/-- `ehdr->e_phoff`. -/
def ePhoff (mem : Bytes) (ehdr : Addr) : ℕ := load mem (ehdr + 32) 8

/-- `ehdr->e_phnum`. -/
def ePhnum (mem : Bytes) (ehdr : Addr) : ℕ := load mem (ehdr + 56) 2

/-- `phdr[i]`. -/
def phdrAt (mem : Bytes) (phdr : Addr) (i : ℕ) : ElfPhdr := readPhdr mem (phdr + .ofNat 64 (56 * i))

/-! ## The two loops -/

/-- "convert physical addr". -/
def toPhysical (vaddr : Addr) : Addr := vaddr - 0xffff800000000000 + 0x100000

/-- The body of the loop of `CalcLoadAddressRange`, with the macros `min` and `max` written out. -/
def widenRange (range : Addr × Addr) (phdr : ElfPhdr) : Addr × Addr :=
  if phdr.pType ≠ ptLoad then range
  else (if range.1 > phdr.pVaddr then phdr.pVaddr else range.1,
    if range.2 > phdr.pVaddr + phdr.pMemsz then range.2 else phdr.pVaddr + phdr.pMemsz)

/-- `void CalcLoadAddressRange(Elf_Ehdr *ehdr, UINT64 *start, UINT64 *end)`. -/
def calcLoadAddressRange (mem : Bytes) (ehdr : Addr) : Addr × Addr :=
  let phdr := ehdr + .ofNat 64 (ePhoff mem ehdr)
  let range := (List.range (ePhnum mem ehdr)).foldl
    (fun (range : Addr × Addr) (i : ℕ) ↦ widenRange range (phdrAt mem phdr i)) (.allOnes 64, 0)
  (toPhysical range.1, toPhysical range.2)

/-- The number of pages `BootMain` asks for at the start of the range. -/
def reservedPages (range : Addr × Addr) : BitVec 64 := (range.2 - range.1 + 0xfff) >>> 12

/-- The body of the loop of `CopyLoadSegments`. -/
def copySegment (ehdr : Addr) (mem : Bytes) (phdr : ElfPhdr) : Bytes :=
  if phdr.pType ≠ ptLoad then mem
  else
    let vaddr := toPhysical phdr.pVaddr
    let segmInFile := ehdr + phdr.pOffset
    let mem := memcpy mem vaddr segmInFile phdr.pFilesz.toNat
    let remainBytes := phdr.pMemsz - phdr.pFilesz
    memset mem (vaddr + phdr.pFilesz) 0 remainBytes.toNat

/-- The loop of `CopyLoadSegments`, at index `i`. -/
def copyLoop (ehdr phdr : Addr) : ℕ → Bytes → ℕ → Bytes
  | 0, mem, _ => mem
  | fuel + 1, mem, i =>
    if i < ePhnum mem ehdr then
      copyLoop ehdr phdr fuel (copySegment ehdr mem (phdrAt mem phdr i)) (i + 1)
    else mem

/-- `void CopyLoadSegments(Elf_Ehdr *ehdr)`; `e_phnum` has 16 bits, so the loop ends. -/
def copyLoadSegments (mem : Bytes) (ehdr : Addr) : Bytes :=
  copyLoop ehdr (ehdr + .ofNat 64 (ePhoff mem ehdr)) (2 ^ 16) mem 0

variable {mem mem' : Bytes} {ehdr phdr : Addr} {fuel i size : ℕ} {p q : ElfPhdr}

theorem copyLoop_of_lt (h : i < ePhnum mem ehdr) : copyLoop ehdr phdr (fuel + 1) mem i =
    copyLoop ehdr phdr fuel (copySegment ehdr mem (phdrAt mem phdr i)) (i + 1) := if_pos h

theorem copyLoop_of_not_lt (h : ¬ i < ePhnum mem ehdr) : copyLoop ehdr phdr fuel mem i = mem := by
  cases fuel with
  | zero => rfl
  | succ fuel => exact if_neg h

/-! ## One segment -/

/-- The address is in the memory of the segment where it is loaded. -/
def ElfPhdr.InDest (p : ElfPhdr) (x : Addr) : Prop :=
  (x - toPhysical p.pVaddr).toNat < p.pMemsz.toNat

instance (p : ElfPhdr) (x : Addr) : Decidable (p.InDest x) := by
  unfold ElfPhdr.InDest
  infer_instance

/-- A segment is copied over where it is to be, and nothing else is written. -/
theorem copySegment_apply (hload : p.pType = ptLoad) (hsize : p.pFilesz.toNat ≤ p.pMemsz.toNat)
    (hsrc : ∀ k < p.pFilesz.toNat, ¬ p.InDest (ehdr + p.pOffset + .ofNat 64 k)) (x : Addr) :
    copySegment ehdr mem p x =
      if (x - toPhysical p.pVaddr).toNat < p.pFilesz.toNat then
        mem (ehdr + p.pOffset + (x - toPhysical p.pVaddr))
      else if p.InDest x then 0 else mem x := by
  have hapart : Apart (ehdr + p.pOffset) p.pFilesz.toNat (toPhysical p.pVaddr) p.pFilesz.toNat :=
    fun k hk ↦ hsize.trans (Nat.le_of_not_lt (hsrc k hk))
  have hremain : (p.pMemsz - p.pFilesz).toNat = p.pMemsz.toNat - p.pFilesz.toNat :=
    BitVec.toNat_sub_of_le (BitVec.le_def.mpr hsize)
  have hmem := p.pMemsz.isLt
  rw [copySegment, if_neg (not_not_intro hload)]
  rw [memset_apply (BitVec.isLt _), memcpy_apply (BitVec.isLt _) hapart, hremain]
  have htail : (x - (toPhysical p.pVaddr + p.pFilesz)).toNat < p.pMemsz.toNat - p.pFilesz.toNat ↔
      ¬ (x - toPhysical p.pVaddr).toNat < p.pFilesz.toNat ∧ p.InDest x := by
    have hoff : x - (toPhysical p.pVaddr + p.pFilesz) = x - toPhysical p.pVaddr - p.pFilesz := by
      bv_omega
    rw [hoff, BitVec.toNat_sub, ElfPhdr.InDest]
    have hx := (x - toPhysical p.pVaddr).isLt
    omega
  by_cases hfile : (x - toPhysical p.pVaddr).toNat < p.pFilesz.toNat
  · rw [if_neg fun h ↦ (htail.mp h).1 hfile, if_pos hfile, if_pos hfile]
  · by_cases hdest : p.InDest x
    · rw [if_pos (htail.mpr ⟨hfile, hdest⟩), if_neg hfile, if_pos hdest]
    · rw [if_neg fun h ↦ hdest (htail.mp h).2, if_neg hfile, if_neg hfile, if_neg hdest]

/-! ## All segments -/

/-- What a loaded segment is to hold at an address of its memory. -/
def ElfPhdr.content (p : ElfPhdr) (ehdr : Addr) (mem : Bytes) (x : Addr) : BitVec 8 :=
  if (x - toPhysical p.pVaddr).toNat < p.pFilesz.toNat then
    mem (ehdr + p.pOffset + (x - toPhysical p.pVaddr))
  else 0

/-- The segment takes its bytes from addresses that are in no segment's memory. -/
def ElfPhdr.SourceOff (p q : ElfPhdr) (ehdr : Addr) : Prop :=
  ∀ k < p.pFilesz.toNat, ¬ q.InDest (ehdr + p.pOffset + .ofNat 64 k)

theorem foldl_copySegment {ps : List ElfPhdr} (hload : ∀ p ∈ ps, p.pType = ptLoad)
    (hsize : ∀ p ∈ ps, p.pFilesz.toNat ≤ p.pMemsz.toNat)
    (hsrc : ∀ p ∈ ps, ∀ q ∈ ps, p.SourceOff q ehdr)
    (hdisjoint : ps.Pairwise fun p q ↦ ∀ x, ¬ (p.InDest x ∧ q.InDest x)) :
    (∀ x, (∀ p ∈ ps, ¬ p.InDest x) → ps.foldl (copySegment ehdr) mem x = mem x) ∧
    ∀ p ∈ ps, ∀ x, p.InDest x → ps.foldl (copySegment ehdr) mem x = p.content ehdr mem x := by
  induction ps generalizing mem with
  | nil => exact ⟨fun x _ ↦ rfl, List.forall_mem_nil _⟩
  | cons p ps ih =>
    rw [List.forall_mem_cons] at hload hsize
    obtain ⟨hfirst, hpairs⟩ := List.pairwise_cons.mp hdisjoint
    have hself := hsrc p List.mem_cons_self p List.mem_cons_self
    have hstep := @copySegment_apply mem ehdr p hload.1 hsize.1 hself
    obtain ⟨hframe, hcontent⟩ := @ih (copySegment ehdr mem p) hload.2 hsize.2
      (fun q hq q' hq' ↦ hsrc q (List.mem_cons_of_mem _ hq) q' (List.mem_cons_of_mem _ hq')) hpairs
    have hout : ∀ x, ¬ p.InDest x → copySegment ehdr mem p x = mem x := by
      intro x hx
      rw [hstep, if_neg fun h ↦ hx (Nat.lt_of_lt_of_le h hsize.1), if_neg hx]
    refine ⟨fun x hx ↦ ?_, List.forall_mem_cons.mpr ⟨fun x hx ↦ ?_, fun q hq x hx ↦ ?_⟩⟩
    · rw [List.forall_mem_cons] at hx
      rw [List.foldl_cons, hframe x hx.2, hout x hx.1]
    · rw [List.foldl_cons, hframe x fun q hq hqx ↦ hfirst q hq x ⟨hx, hqx⟩, hstep, if_pos hx,
        ElfPhdr.content]
    · rw [List.foldl_cons, hcontent q hq x hx, ElfPhdr.content, ElfPhdr.content]
      by_cases hfile : (x - toPhysical q.pVaddr).toNat < q.pFilesz.toNat
      · have hoff := hsrc q (List.mem_cons_of_mem _ hq) p List.mem_cons_self _ hfile
        rw [BitVec.ofNat_toNat, BitVec.setWidth_eq] at hoff
        rw [if_pos hfile, if_pos hfile, hout _ hoff]
      · rw [if_neg hfile, if_neg hfile]

/-! ## The file -/

/-- The program headers of the file at `ehdr`. -/
def phdrs (mem : Bytes) (ehdr : Addr) : List ElfPhdr :=
  (List.range (ePhnum mem ehdr)).map (phdrAt mem (ehdr + .ofNat 64 (ePhoff mem ehdr)))

/-- The segments that are loaded. -/
def segments (mem : Bytes) (ehdr : Addr) : List ElfPhdr :=
  (phdrs mem ehdr).filter fun p ↦ p.pType = ptLoad

/-- A kernel file of `size` bytes in a buffer at `ehdr`: its headers and the contents of its
segments lie in the buffer, its segments lie in the upper half, apart from each other, and are
loaded off the buffer. -/
structure KernelFile (mem : Bytes) (ehdr : Addr) (size : ℕ) : Prop where
  fits : ehdr.toNat + size ≤ 2 ^ 64
  header : 64 ≤ size
  table : ePhoff mem ehdr + 56 * ePhnum mem ehdr ≤ size
  vaddr : ∀ p ∈ segments mem ehdr, 0xffff800000000000 ≤ p.pVaddr.toNat
  filesz : ∀ p ∈ segments mem ehdr, p.pFilesz.toNat ≤ p.pMemsz.toNat
  nowrap : ∀ p ∈ segments mem ehdr, p.pVaddr.toNat + p.pMemsz.toNat < 2 ^ 64
  contents : ∀ p ∈ segments mem ehdr, p.pOffset.toNat + p.pFilesz.toNat ≤ size
  disjoint : (segments mem ehdr).Pairwise fun p q ↦
    ∀ v : ℕ, ¬ (v ∈ Set.Ico p.pVaddr.toNat (p.pVaddr.toNat + p.pMemsz.toNat) ∧
      v ∈ Set.Ico q.pVaddr.toNat (q.pVaddr.toNat + q.pMemsz.toNat))
  apart : ∀ p ∈ segments mem ehdr, ∀ k < size, ¬ p.InDest (ehdr + .ofNat 64 k)

/-- The part of `KernelFile` that the copy needs: the file lies in a buffer off the memory of its
segments. -/
structure FileInBuffer (mem : Bytes) (ehdr : Addr) (size : ℕ) : Prop where
  fits : ehdr.toNat + size ≤ 2 ^ 64
  header : 64 ≤ size
  table : ePhoff mem ehdr + 56 * ePhnum mem ehdr ≤ size
  filesz : ∀ p ∈ segments mem ehdr, p.pFilesz.toNat ≤ p.pMemsz.toNat
  contents : ∀ p ∈ segments mem ehdr, p.pOffset.toNat + p.pFilesz.toNat ≤ size
  apart : ∀ p ∈ segments mem ehdr, ∀ k < size, ¬ p.InDest (ehdr + .ofNat 64 k)

theorem KernelFile.fileInBuffer (h : KernelFile mem ehdr size) : FileInBuffer mem ehdr size where
  fits := h.fits
  header := h.header
  table := h.table
  filesz := h.filesz
  contents := h.contents
  apart := h.apart

theorem toNat_toPhysical {v : Addr} (h : 0xffff800000000000 ≤ v.toNat) :
    (toPhysical v).toNat = v.toNat - 0xffff800000000000 + 0x100000 := by
  have hlow : (0xffff800000000000 : Addr) ≤ v := BitVec.le_def.mpr h
  have hker : (0xffff800000000000 : Addr).toNat = 0xffff800000000000 := rfl
  have hmeg : (0x100000 : Addr).toNat = 0x100000 := rfl
  have hv := v.isLt
  rw [toPhysical, BitVec.toNat_add, BitVec.toNat_sub_of_le hlow, hker, hmeg, Nat.mod_eq_of_lt]
  omega

/-- The memory of a loaded segment is its memory in the upper half, moved. -/
theorem inDest_iff (hvaddr : 0xffff800000000000 ≤ p.pVaddr.toNat)
    (hnowrap : p.pVaddr.toNat + p.pMemsz.toNat < 2 ^ 64) (x : Addr) : p.InDest x ↔
      0x100000 ≤ x.toNat ∧ x.toNat + 0xffff800000000000 - 0x100000 ∈
        Set.Ico p.pVaddr.toNat (p.pVaddr.toNat + p.pMemsz.toNat) := by
  have hx := x.isLt
  rw [ElfPhdr.InDest, BitVec.toNat_sub, toNat_toPhysical hvaddr, Set.mem_Ico]
  omega

/-- The buffer is as it was. -/
def SameBuffer (ehdr : Addr) (size : ℕ) (mem mem' : Bytes) : Prop :=
  ∀ k < size, mem' (ehdr + .ofNat 64 k) = mem (ehdr + .ofNat 64 k)

theorem SameBuffer.load {o n : ℕ} (h : SameBuffer ehdr size mem mem') (ho : o + n ≤ size) :
    load mem' (ehdr + .ofNat 64 o) n = load mem (ehdr + .ofNat 64 o) n :=
  load_eq_of_same h ho

theorem SameBuffer.phdrAt {o : ℕ} (h : SameBuffer ehdr size mem mem')
    (ho : o + 56 * (i + 1) ≤ size) :
    phdrAt mem' (ehdr + .ofNat 64 o) i = phdrAt mem (ehdr + .ofNat 64 o) i := by
  have hoff : ∀ j, ehdr + .ofNat 64 o + .ofNat 64 (56 * i) + .ofNat 64 j =
      ehdr + .ofNat 64 (o + 56 * i + j) := fun j ↦ by
    rw [BitVec.add_assoc, BitVec.add_assoc, BitVec.ofNat_add, BitVec.ofNat_add, BitVec.add_assoc]
  have h0 := h.load (o := o + 56 * i + 0) (n := 2) (by omega)
  have h8 := h.load (o := o + 56 * i + 8) (n := 8) (by omega)
  have h16 := h.load (o := o + 56 * i + 16) (n := 8) (by omega)
  have h32 := h.load (o := o + 56 * i + 32) (n := 8) (by omega)
  have h40 := h.load (o := o + 56 * i + 40) (n := 8) (by omega)
  rw [← hoff] at h0 h8 h16 h32 h40
  rw [BitVec.add_zero] at h0
  show ElfPhdr.mk _ _ _ _ _ = ElfPhdr.mk _ _ _ _ _
  rw [ElfPhdr.mk.injEq]
  exact ⟨congrArg _ h0, congrArg _ h8, congrArg _ h16, congrArg _ h32, congrArg _ h40⟩

namespace FileInBuffer

variable (h : FileInBuffer mem ehdr size)

include h

theorem ePhnum_eq (hsame : SameBuffer ehdr size mem mem') : ePhnum mem' ehdr = ePhnum mem ehdr :=
  hsame.load (Nat.le_trans (by decide) h.header)

theorem phdrAt_eq (hsame : SameBuffer ehdr size mem mem') (hi : i < ePhnum mem ehdr) :
    phdrAt mem' (ehdr + .ofNat 64 (ePhoff mem ehdr)) i =
      phdrAt mem (ehdr + .ofNat 64 (ePhoff mem ehdr)) i := by
  have htable := h.table
  exact hsame.phdrAt (by omega)

/-- The bytes of a segment in the file lie in the buffer. -/
theorem sourceOff (hp : p ∈ segments mem ehdr) (hq : q ∈ segments mem ehdr) :
    p.SourceOff q ehdr := by
  intro k hk
  have hcontents := h.contents p hp
  have hfits := h.fits
  have hoff : ehdr + p.pOffset + .ofNat 64 k = ehdr + .ofNat 64 (p.pOffset.toNat + k) := by
    rw [BitVec.ofNat_add, BitVec.ofNat_toNat, BitVec.setWidth_eq, BitVec.add_assoc]
  rw [hoff]
  exact h.apart q hq _ (by omega)

/-- A program header leaves the buffer as it is. -/
theorem sameBuffer_copySegment (hsame : SameBuffer ehdr size mem mem') (hp : p ∈ phdrs mem ehdr) :
    SameBuffer ehdr size mem (copySegment ehdr mem' p) := by
  intro k hk
  by_cases hload : p.pType = ptLoad
  · have hseg : p ∈ segments mem ehdr := List.mem_filter.mpr ⟨hp, decide_eq_true hload⟩
    have hout := h.apart p hseg k hk
    rw [copySegment_apply hload (h.filesz p hseg) (h.sourceOff hseg hseg), if_neg hout, if_neg]
    · exact hsame k hk
    · exact fun hlt ↦ hout (Nat.lt_of_lt_of_le hlt (h.filesz p hseg))
  · rw [copySegment, if_pos hload]
    exact hsame k hk

/-- The loop copies the segments of the file. -/
theorem copyLoop_eq {k : ℕ} (hik : i + k = ePhnum mem ehdr) (hk : k ≤ fuel)
    (hsame : SameBuffer ehdr size mem mem') :
    copyLoop ehdr (ehdr + .ofNat 64 (ePhoff mem ehdr)) fuel mem' i =
      ((phdrs mem ehdr).drop i).foldl (copySegment ehdr) mem' := by
  induction k generalizing i fuel mem' with
  | zero =>
    rw [copyLoop_of_not_lt, List.drop_eq_nil_of_le, List.foldl_nil]
    · rw [phdrs, List.length_map, List.length_range]
      omega
    · rw [h.ePhnum_eq hsame]
      omega
  | succ k ih =>
    obtain ⟨fuel, rfl⟩ : ∃ f, fuel = f + 1 := ⟨fuel - 1, by omega⟩
    have hi : i < ePhnum mem ehdr := by omega
    have hlen : i < (phdrs mem ehdr).length := by
      rwa [phdrs, List.length_map, List.length_range]
    have hget : (phdrs mem ehdr)[i] = phdrAt mem (ehdr + .ofNat 64 (ePhoff mem ehdr)) i := by
      simp only [phdrs, List.getElem_map, List.getElem_range]
    have hmem : phdrAt mem (ehdr + .ofNat 64 (ePhoff mem ehdr)) i ∈ phdrs mem ehdr :=
      hget ▸ List.getElem_mem hlen
    rw [copyLoop_of_lt (by rwa [h.ePhnum_eq hsame]), h.phdrAt_eq hsame hi,
      ih (by omega) (by omega) (h.sameBuffer_copySegment hsame hmem),
        List.drop_eq_getElem_cons hlen,
      hget, List.foldl_cons]

theorem copyLoadSegments_eq :
    copyLoadSegments mem ehdr = (segments mem ehdr).foldl (copySegment ehdr) mem := by
  have hlt : ePhnum mem ehdr < 256 ^ 2 := load_lt mem (ehdr + 56) 2
  rw [copyLoadSegments, h.copyLoop_eq (Nat.zero_add _) (by omega) fun _ _ ↦ rfl, List.drop_zero,
    segments, List.foldl_filter]
  congr 1
  funext m p
  by_cases hload : p.pType = ptLoad
  · rw [if_pos (decide_eq_true hload)]
  · rw [if_neg (by simpa using hload), copySegment, if_pos hload]

end FileInBuffer

theorem KernelFile.dest_disjoint (h : KernelFile mem ehdr size) :
    (segments mem ehdr).Pairwise fun p q ↦ ∀ x, ¬ (p.InDest x ∧ q.InDest x) := by
  refine h.disjoint.imp_of_mem fun {p q} hp hq hpq x hx ↦ ?_
  rw [inDest_iff (h.vaddr p hp) (h.nowrap p hp), inDest_iff (h.vaddr q hq) (h.nowrap q hq)] at hx
  exact hpq _ ⟨hx.1.2, hx.2.2⟩

/-! ## The reserved range -/

theorem widenRange_bounds (p : ElfPhdr) (range : Addr × Addr) :
    (widenRange range p).1 ≤ range.1 ∧ range.2 ≤ (widenRange range p).2 ∧
      (p.pType = ptLoad → (widenRange range p).1 ≤ p.pVaddr ∧
        p.pVaddr + p.pMemsz ≤ (widenRange range p).2) := by
  have hrefl : ∀ a : Addr, a ≤ a := BitVec.le_refl
  rw [widenRange]
  split_ifs with hload hlow hhigh hhigh
  · exact ⟨hrefl _, hrefl _, fun h ↦ absurd h hload⟩
  · exact ⟨BitVec.le_of_lt hlow, hrefl _, fun _ ↦ ⟨hrefl _, BitVec.le_of_lt hhigh⟩⟩
  · exact ⟨BitVec.le_of_lt hlow, BitVec.not_lt.mp hhigh, fun _ ↦ ⟨hrefl _, hrefl _⟩⟩
  · exact ⟨hrefl _, hrefl _, fun _ ↦ ⟨BitVec.not_lt.mp hlow, BitVec.le_of_lt hhigh⟩⟩
  · exact ⟨hrefl _, BitVec.not_lt.mp hhigh, fun _ ↦ ⟨BitVec.not_lt.mp hlow, hrefl _⟩⟩

/-- The range covers every loaded segment. -/
theorem foldl_widenRange_bounds (ps : List ElfPhdr) (range : Addr × Addr) :
    (ps.foldl widenRange range).1 ≤ range.1 ∧ range.2 ≤ (ps.foldl widenRange range).2 ∧
      ∀ p ∈ ps, p.pType = ptLoad → (ps.foldl widenRange range).1 ≤ p.pVaddr ∧
        p.pVaddr + p.pMemsz ≤ (ps.foldl widenRange range).2 := by
  induction ps generalizing range with
  | nil => exact ⟨BitVec.le_refl _, BitVec.le_refl _, List.forall_mem_nil _⟩
  | cons p ps ih =>
    obtain ⟨hlow, hhigh, hself⟩ := widenRange_bounds p range
    obtain ⟨hlow', hhigh', hall⟩ := ih (widenRange range p)
    refine ⟨BitVec.le_trans hlow' hlow, BitVec.le_trans hhigh hhigh',
      List.forall_mem_cons.mpr ⟨fun hload ↦ ?_, hall⟩⟩
    exact ⟨BitVec.le_trans hlow' (hself hload).1, BitVec.le_trans (hself hload).2 hhigh'⟩

/-- A lower bound of the segments stays one of the range. -/
theorem le_foldl_widenRange {low : Addr} (ps : List ElfPhdr) {range : Addr × Addr}
    (hrange : low ≤ range.1) (hall : ∀ p ∈ ps, p.pType = ptLoad → low ≤ p.pVaddr) :
    low ≤ (ps.foldl widenRange range).1 := by
  induction ps generalizing range with
  | nil => exact hrange
  | cons p ps ih =>
    rw [List.forall_mem_cons] at hall
    refine ih ?_ hall.2
    rw [widenRange]
    split_ifs with hload
    · exact hrange
    · exact hall.1 (not_not.mp hload)
    · exact hall.1 (not_not.mp hload)
    · exact hrange
    · exact hrange

/-- The address lies in the pages reserved for the kernel. -/
def Reserved (mem : Bytes) (ehdr x : Addr) : Prop :=
  let range := calcLoadAddressRange mem ehdr
  range.1.toNat ≤ x.toNat ∧ x.toNat < range.1.toNat + 4096 * (reservedPages range).toNat

theorem KernelFile.reserved (h : KernelFile mem ehdr size) (hp : p ∈ segments mem ehdr) {x : Addr}
    (hx : p.InDest x) : Reserved mem ehdr x := by
  obtain ⟨hmem, hload⟩ := List.mem_filter.mp hp
  have hload := of_decide_eq_true hload
  have hfold : calcLoadAddressRange mem ehdr =
      (toPhysical ((phdrs mem ehdr).foldl widenRange (.allOnes 64, 0)).1,
        toPhysical ((phdrs mem ehdr).foldl widenRange (.allOnes 64, 0)).2) := by
    rw [phdrs, List.foldl_map]
    rfl
  obtain ⟨-, -, hall⟩ := foldl_widenRange_bounds (phdrs mem ehdr) (.allOnes 64, 0)
  have hlow : (0xffff800000000000 : Addr) ≤
      ((phdrs mem ehdr).foldl widenRange (.allOnes 64, 0)).1 := by
    refine le_foldl_widenRange _ (by decide) fun q hq hq' ↦ ?_
    exact BitVec.le_def.mpr (h.vaddr q (List.mem_filter.mpr ⟨hq, decide_eq_true hq'⟩))
  obtain ⟨hstart, hend⟩ := hall p hmem hload
  generalize (phdrs mem ehdr).foldl widenRange (.allOnes 64, 0) = range at hfold hlow hstart hend
  have hvaddr := h.vaddr p hp
  have hnowrap := h.nowrap p hp
  rw [BitVec.le_def] at hlow hstart hend
  have hsum : (p.pVaddr + p.pMemsz).toNat = p.pVaddr.toNat + p.pMemsz.toNat := by
    rw [BitVec.toNat_add, Nat.mod_eq_of_lt hnowrap]
  rw [hsum] at hend
  have hlow' : 0xffff800000000000 ≤ range.1.toNat := hlow
  have hhigh : 0xffff800000000000 ≤ range.2.toNat := by omega
  obtain ⟨hx1, hx2⟩ := (inDest_iff hvaddr hnowrap x).mp hx
  rw [Set.mem_Ico] at hx2
  have hpages : (toPhysical range.2 - toPhysical range.1 + 0xfff).toNat =
      range.2.toNat - range.1.toNat + 0xfff := by
    have hle : toPhysical range.1 ≤ toPhysical range.2 := by
      rw [BitVec.le_def, toNat_toPhysical hlow', toNat_toPhysical hhigh]
      omega
    have hconst : (0xfff : Addr).toNat = 0xfff := rfl
    have hlt := range.2.isLt
    rw [BitVec.toNat_add, BitVec.toNat_sub_of_le hle, toNat_toPhysical hlow',
      toNat_toPhysical hhigh, hconst, Nat.mod_eq_of_lt (by omega)]
    omega
  rw [Reserved, hfold, reservedPages]
  dsimp only
  rw [BitVec.toNat_ushiftRight, Nat.shiftRight_eq_div_pow, hpages, toNat_toPhysical hlow']
  omega

/-- After the copy each segment holds its bytes of the file and zeros behind them, and only the
pages reserved for the kernel have been written. -/
theorem kernel_image_loaded (mem : Bytes) (ehdr : Addr) (size : ℕ) (h : KernelFile mem ehdr size) :
    (∀ p ∈ segments mem ehdr, ∀ k < p.pMemsz.toNat,
      copyLoadSegments mem ehdr (toPhysical p.pVaddr + .ofNat 64 k) =
        if k < p.pFilesz.toNat then mem (ehdr + p.pOffset + .ofNat 64 k) else 0) ∧
    (∀ p ∈ segments mem ehdr, ∀ k < p.pMemsz.toNat,
      Reserved mem ehdr (toPhysical p.pVaddr + .ofNat 64 k)) ∧
    ∀ x, copyLoadSegments mem ehdr x ≠ mem x → Reserved mem ehdr x := by
  have hload : ∀ p ∈ segments mem ehdr, p.pType = ptLoad := fun p hp ↦
    of_decide_eq_true (List.mem_filter.mp hp).2
  obtain ⟨hframe, hcontent⟩ := @foldl_copySegment mem ehdr _ hload h.filesz
    (fun p hp q hq ↦ h.fileInBuffer.sourceOff hp hq) h.dest_disjoint
  rw [← h.fileInBuffer.copyLoadSegments_eq] at hframe hcontent
  have hoff : ∀ p : ElfPhdr, ∀ k < p.pMemsz.toNat,
      toPhysical p.pVaddr + .ofNat 64 k - toPhysical p.pVaddr = .ofNat 64 k ∧
        (BitVec.ofNat 64 k).toNat = k := by
    intro p k hk
    have hlt := p.pMemsz.isLt
    rw [BitVec.add_comm, BitVec.add_sub_cancel, BitVec.toNat_ofNat, Nat.mod_eq_of_lt (by omega)]
    exact ⟨rfl, rfl⟩
  have hin : ∀ p : ElfPhdr, ∀ k < p.pMemsz.toNat,
      p.InDest (toPhysical p.pVaddr + .ofNat 64 k) := by
    intro p k hk
    rwa [ElfPhdr.InDest, (hoff p k hk).1, (hoff p k hk).2]
  refine ⟨fun p hp k hk ↦ ?_, fun p hp k hk ↦ h.reserved hp (hin p k hk), fun x hx ↦ ?_⟩
  · rw [hcontent p hp _ (hin p k hk), ElfPhdr.content, (hoff p k hk).1, (hoff p k hk).2]
  · by_contra hout
    exact hx (hframe x fun p hp hpx ↦ hout (h.reserved hp hpx))

/-- The fields of a program header that the loader reads. -/
def storePhdr (mem : Bytes) (phdr : Addr) (p : ElfPhdr) : Bytes :=
  let mem := store mem phdr 2 p.pType.toNat
  let mem := store mem (phdr + 8) 8 p.pOffset.toNat
  let mem := store mem (phdr + 16) 8 p.pVaddr.toNat
  let mem := store mem (phdr + 32) 8 p.pFilesz.toNat
  store mem (phdr + 40) 8 p.pMemsz.toNat

/-- A file of two segments on two pages, each with fewer bytes in the file than in memory. -/
def smallFile : Bytes :=
  let ehdr : Addr := 0x200000
  let mem := store (fun _ ↦ 0xff) (ehdr + 32) 8 64
  let mem := store mem (ehdr + 56) 2 2
  let mem := storePhdr mem (ehdr + 64) ⟨1, 176, 0xffff800000000000, 1, 2⟩
  let mem := storePhdr mem (ehdr + 120) ⟨1, 177, 0xffff800000001000, 2, 0x1000⟩
  store mem (ehdr + 176) 3 0x5b5a59

theorem segments_smallFile : segments smallFile 0x200000 =
    [⟨1, 176, 0xffff800000000000, 1, 2⟩, ⟨1, 177, 0xffff800000001000, 2, 0x1000⟩] := by
  decide +kernel

theorem kernelFile_smallFile : KernelFile smallFile 0x200000 179 := by
  have hphoff : ePhoff smallFile 0x200000 = 64 := by decide +kernel
  have hphnum : ePhnum smallFile 0x200000 = 2 := by decide +kernel
  refine ⟨by decide, by decide, ?_, ?_, ?_, ?_, ?_, ?_, ?_⟩
  · rw [hphoff, hphnum]
    decide
  all_goals rw [segments_smallFile]
  · decide
  · decide
  · decide
  · decide
  · refine List.pairwise_pair.mpr fun v hv ↦ ?_
    exact absurd (lt_of_le_of_lt hv.2.1 hv.1.2) (by decide)
  · decide +kernel

theorem kernel_image_loaded_small :
    (∀ p ∈ segments smallFile 0x200000, ∀ k < p.pMemsz.toNat,
      copyLoadSegments smallFile 0x200000 (toPhysical p.pVaddr + .ofNat 64 k) =
        if k < p.pFilesz.toNat then smallFile (0x200000 + p.pOffset + .ofNat 64 k) else 0) ∧
    (∀ p ∈ segments smallFile 0x200000, ∀ k < p.pMemsz.toNat,
      Reserved smallFile 0x200000 (toPhysical p.pVaddr + .ofNat 64 k)) ∧
    ∀ x, copyLoadSegments smallFile 0x200000 x ≠ smallFile x → Reserved smallFile 0x200000 x :=
  kernel_image_loaded smallFile 0x200000 179 kernelFile_smallFile

end VimOS
