import Mathlib.Data.List.Sort
import VimOS.Boot.LoadSegments

/-!
# The program headers as ELF64 has them

The boot loader reads the kernel through the types of `include/elf.h`. Their `Elf_Phdr` has a
`p_type` of 16 bits, the lower half of the format's 32, and its size of 56 bytes is taken for the
distance of two headers, where the format has `e_phentsize`. `BootMain` takes the entry address not
from the file but from the loaded image: it reads the start of the image as an `Elf_Ehdr`.

This file compares the two readings of a file.
-/

namespace VimOS

open ByteMemory

/-! ## What the code takes for loadable -/

section Code

variable (mem : Bytes) (ehdr : Addr)

/-- The address of the program headers. -/
def phdrTable : Addr := ehdr + .ofNat 64 (ePhoff mem ehdr)

/-- The headers that the loop of `CalcLoadAddressRange` does not pass over, by their offset in the
table. -/
def calcLoads : List ℕ :=
  ((List.range (ePhnum mem ehdr)).filter fun i ↦
    (phdrAt mem (phdrTable mem ehdr) i).pType = ptLoad).map (56 * ·)

/-- The headers that the loop of `CopyLoadSegments` does not pass over. -/
def copyLoads (ehdr phdr : Addr) : ℕ → Bytes → ℕ → List ℕ
  | 0, _, _ => []
  | fuel + 1, mem, i =>
    if i < ePhnum mem ehdr then
      (if (phdrAt mem phdr i).pType = ptLoad then [56 * i] else []) ++
        copyLoads ehdr phdr fuel (copySegment ehdr mem (phdrAt mem phdr i)) (i + 1)
    else []

/-- `ehdr->e_entry`. -/
def eEntry : ℕ := load mem (ehdr + 24) 8

/-- The part of `BootMain` that computes `vMain_addr`; `freePool` is what freeing the buffer does to
memory. -/
def vMainAddr (freePool : Bytes → Bytes) : ℕ :=
  let start := (calcLoadAddressRange mem ehdr).1
  let mem := freePool (copyLoadSegments mem ehdr)
  eEntry mem start

end Code

/-! ## What the format has -/

section Format

variable (mem : Bytes) (ehdr : Addr)

/-- `e_phentsize`. -/
def ePhentsize : ℕ := load mem (ehdr + 54) 2

/-- The offsets in the table of the headers with a `p_type`, in 32 bits, of `PT_LOAD`. -/
def elfLoads : List ℕ :=
  ((List.range (ePhnum mem ehdr)).map (ePhentsize mem ehdr * ·)).filter fun o ↦
    load mem (phdrTable mem ehdr + .ofNat 64 o) 4 = 1

/-- The loadable segments of the file. -/
def elfSegments : List ElfPhdr :=
  (elfLoads mem ehdr).map fun o ↦ readPhdr mem (phdrTable mem ehdr + .ofNat 64 o)

/-- An executable of `size` bytes in a buffer at `ehdr`, off the memory of its segments. -/
structure ElfImage (size : ℕ) : Prop where
  fits : ehdr.toNat + size ≤ 2 ^ 64
  header : 64 ≤ size
  entsize : 56 ≤ ePhentsize mem ehdr
  table : ePhoff mem ehdr + ePhentsize mem ehdr * ePhnum mem ehdr ≤ size
  filesz : ∀ p ∈ elfSegments mem ehdr, p.pFilesz.toNat ≤ p.pMemsz.toNat
  nowrap : ∀ p ∈ elfSegments mem ehdr, p.pVaddr.toNat + p.pMemsz.toNat ≤ 2 ^ 64
  contents : ∀ p ∈ elfSegments mem ehdr, p.pOffset.toNat + p.pFilesz.toNat ≤ size
  disjoint : (elfSegments mem ehdr).Pairwise fun p q ↦
    ∀ v : ℕ, ¬ (v ∈ Set.Ico p.pVaddr.toNat (p.pVaddr.toNat + p.pMemsz.toNat) ∧
      v ∈ Set.Ico q.pVaddr.toNat (q.pVaddr.toNat + q.pMemsz.toNat))
  apart : ∀ p ∈ elfSegments mem ehdr, ∀ k < size, ¬ p.InDest (ehdr + .ofNat 64 k)

/-- Memory as the file wants it: the segments in their places. -/
def elfMemory : Bytes := fun x ↦
  match (elfSegments mem ehdr).find? (·.InDest x) with
  | some p => p.content ehdr mem x
  | none => mem x

end Format

variable {mem mem' : Bytes} {ehdr phdr : Addr} {size fuel i n : ℕ} {p q first : ElfPhdr}

/-! ## The two lists of headers -/

theorem segments_eq_map :
    segments mem ehdr = (calcLoads mem ehdr).map fun o ↦
      readPhdr mem (phdrTable mem ehdr + .ofNat 64 o) := by
  rw [segments, phdrs, List.filter_map, calcLoads, List.map_map]
  rfl

theorem segments_eq_elfSegments (h : calcLoads mem ehdr = elfLoads mem ehdr) :
    segments mem ehdr = elfSegments mem ehdr := by
  rw [segments_eq_map, h, elfSegments]

/-- The 16 bits are the lower ones. -/
theorem load_two (a : Addr) : load mem a 2 = load mem a 4 % 2 ^ 16 := by
  have hbyte : ∀ x, (mem x).toNat < 256 := fun x ↦ (mem x).isLt
  have h0 := hbyte a
  have h1 := hbyte (a + 1)
  simp only [load]
  omega

theorem mem_calcLoads {o : ℕ} : o ∈ calcLoads mem ehdr ↔ ∃ i < ePhnum mem ehdr,
    load mem (phdrTable mem ehdr + .ofNat 64 o) 2 = 1 ∧ 56 * i = o := by
  have hload : ∀ i, (phdrAt mem (phdrTable mem ehdr) i).pType = ptLoad ↔
      load mem (phdrTable mem ehdr + .ofNat 64 (56 * i)) 2 = 1 := by
    intro i
    have hlt : load mem (phdrTable mem ehdr + .ofNat 64 (56 * i)) 2 < 2 ^ 16 :=
      (load_lt mem _ 2).trans_eq (by decide)
    rw [phdrAt, readPhdr, ptLoad, ← BitVec.toNat_inj, BitVec.toNat_ofNat, Nat.mod_eq_of_lt hlt]
    rfl
  simp only [calcLoads, List.mem_map, List.mem_filter, List.mem_range, decide_eq_true_eq, hload]
  constructor
  · rintro ⟨i, ⟨hi, hone⟩, rfl⟩
    exact ⟨i, hi, hone, rfl⟩
  · rintro ⟨i, hi, hone, rfl⟩
    exact ⟨i, ⟨hi, hone⟩, rfl⟩

theorem mem_elfLoads {o : ℕ} : o ∈ elfLoads mem ehdr ↔
    (∃ i < ePhnum mem ehdr, ePhentsize mem ehdr * i = o) ∧
      load mem (phdrTable mem ehdr + .ofNat 64 o) 4 = 1 := by
  simp only [elfLoads, List.mem_filter, List.mem_map, List.mem_range, decide_eq_true_eq]

/-- Each of the code's headers is a header of the file, and loadable for both, or is passed over. -/
theorem calcLoads_eq_iff (hentsize : 0 < ePhentsize mem ehdr) :
    calcLoads mem ehdr = elfLoads mem ehdr ↔
      (∀ o ∈ elfLoads mem ehdr, ∃ i < ePhnum mem ehdr, 56 * i = o) ∧
      ∀ i < ePhnum mem ehdr, load mem (phdrTable mem ehdr + .ofNat 64 (56 * i)) 2 = 1 →
        56 * i ∈ elfLoads mem ehdr := by
  constructor
  · intro heq
    constructor
    · intro o ho
      obtain ⟨i, hi, -, hio⟩ := mem_calcLoads.mp (heq ▸ ho)
      exact ⟨i, hi, hio⟩
    · intro i hi hone
      exact heq ▸ mem_calcLoads.mpr ⟨i, hi, hone, rfl⟩
  · rintro ⟨hplace, hcode⟩
    have hcalc : (calcLoads mem ehdr).Pairwise (· < ·) :=
      (List.pairwise_lt_range.filter _).map _ fun _ _ hlt ↦
        Nat.mul_lt_mul_of_pos_left hlt (by decide)
    have helf : (elfLoads mem ehdr).Pairwise (· < ·) :=
      (List.pairwise_lt_range.map _ fun _ _ hlt ↦ Nat.mul_lt_mul_of_pos_left hlt hentsize).filter _
    refine hcalc.eq_of_mem_iff helf fun o ↦ ⟨fun ho ↦ ?_, fun ho ↦ ?_⟩
    · obtain ⟨i, hi, hone, rfl⟩ := mem_calcLoads.mp ho
      exact hcode i hi hone
    · obtain ⟨i, hi, rfl⟩ := hplace o ho
      refine mem_calcLoads.mpr ⟨i, hi, ?_, rfl⟩
      rw [load_two, (mem_elfLoads.mp ho).2]
      rfl

/-! ## The copy -/

/-- The loop of the copy passes over the same headers. -/
theorem FileInBuffer.copyLoads_eq {k : ℕ} (h : FileInBuffer mem ehdr size)
    (hik : i + k = ePhnum mem ehdr) (hk : k ≤ fuel) (hsame : SameBuffer ehdr size mem mem') :
    copyLoads ehdr (phdrTable mem ehdr) fuel mem' i =
      ((List.range' i k).filter fun i ↦
        (phdrAt mem (phdrTable mem ehdr) i).pType = ptLoad).map (56 * ·) := by
  induction k generalizing i fuel mem' with
  | zero =>
    have hi : ¬ i < ePhnum mem' ehdr := by
      rw [h.ePhnum_eq hsame, ← hik]
      exact Nat.lt_irrefl i
    cases fuel with
    | zero => rfl
    | succ fuel => exact if_neg hi
  | succ k ih =>
    obtain ⟨fuel, rfl⟩ : ∃ f, fuel = f + 1 := ⟨fuel - 1, by omega⟩
    have hi : i < ePhnum mem ehdr := by omega
    have hmem : phdrAt mem (phdrTable mem ehdr) i ∈ phdrs mem ehdr :=
      List.mem_map.mpr ⟨i, List.mem_range.mpr hi, rfl⟩
    have hrest := @ih _ fuel (i + 1) (by omega) (by omega) (h.sameBuffer_copySegment hsame hmem)
    rw [copyLoads, if_pos (by rwa [h.ePhnum_eq hsame]), phdrTable,
      h.phdrAt_eq hsame hi, ← phdrTable,
      hrest, List.range'_succ, List.filter_cons]
    by_cases hload : (phdrAt mem (phdrTable mem ehdr) i).pType = ptLoad
    · rw [if_pos hload, if_pos (decide_eq_true hload)]
      rfl
    · rw [if_neg hload, if_neg (by simpa using hload)]
      rfl

/-- The lowest address is found. -/
theorem calcLoadAddressRange_fst (hfirst : first ∈ segments mem ehdr)
    (hlow : ∀ p ∈ segments mem ehdr, first.pVaddr ≤ p.pVaddr) :
    (calcLoadAddressRange mem ehdr).1 = toPhysical first.pVaddr := by
  obtain ⟨hmem, hload⟩ := List.mem_filter.mp hfirst
  have hfold : (calcLoadAddressRange mem ehdr).1 =
      toPhysical ((phdrs mem ehdr).foldl widenRange (.allOnes 64, 0)).1 := by
    rw [phdrs, List.foldl_map]
    rfl
  obtain ⟨-, -, hall⟩ := foldl_widenRange_bounds (phdrs mem ehdr) (.allOnes 64, 0)
  have hall' : first.pVaddr ≤ BitVec.allOnes 64 := by
    rw [BitVec.le_def, BitVec.toNat_allOnes]
    exact Nat.le_sub_one_of_lt first.pVaddr.isLt
  have hge : first.pVaddr ≤ ((phdrs mem ehdr).foldl widenRange (.allOnes 64, 0)).1 :=
    le_foldl_widenRange _ hall' fun p hp hp' ↦
      hlow p (List.mem_filter.mpr ⟨hp, decide_eq_true hp'⟩)
  rw [hfold, BitVec.le_antisymm (hall first hmem (of_decide_eq_true hload)).1 hge]

theorem inDest_iff_mem_Ico (hnowrap : p.pVaddr.toNat + p.pMemsz.toNat ≤ 2 ^ 64) (x : Addr) :
    p.InDest x ↔ (x - 0x100000 + 0xffff800000000000).toNat ∈
      Set.Ico p.pVaddr.toNat (p.pVaddr.toNat + p.pMemsz.toNat) := by
  have hoff : x - toPhysical p.pVaddr = x - 0x100000 + 0xffff800000000000 - p.pVaddr := by
    rw [toPhysical]
    bv_omega
  have hv := (x - 0x100000 + 0xffff800000000000).isLt
  rw [ElfPhdr.InDest, hoff, BitVec.toNat_sub, Set.mem_Ico]
  omega

namespace ElfImage

variable (h : ElfImage mem ehdr size)

include h

theorem fileInBuffer (heq : segments mem ehdr = elfSegments mem ehdr) :
    FileInBuffer mem ehdr size where
  fits := h.fits
  header := h.header
  table := (Nat.add_le_add_left (Nat.mul_le_mul_right _ h.entsize) _).trans h.table
  filesz := heq ▸ h.filesz
  contents := heq ▸ h.contents
  apart := heq ▸ h.apart

theorem dest_disjoint :
    (elfSegments mem ehdr).Pairwise fun p q ↦ ∀ x, ¬ (p.InDest x ∧ q.InDest x) := by
  refine h.disjoint.imp_of_mem fun {p q} hp hq hpq x hx ↦ ?_
  rw [inDest_iff_mem_Ico (h.nowrap p hp), inDest_iff_mem_Ico (h.nowrap q hq)] at hx
  exact hpq _ hx

theorem elfMemory_apply (hp : p ∈ elfSegments mem ehdr) {x : Addr} (hx : p.InDest x) :
    elfMemory mem ehdr x = p.content ehdr mem x := by
  rw [elfMemory]
  split
  case h_1 q hq =>
    have hqx : q.InDest x := by simpa using List.find?_some hq
    have hpq : q = p := by
      by_contra hne
      have : Std.Symm fun p q : ElfPhdr ↦ ∀ x, ¬ (p.InDest x ∧ q.InDest x) :=
        ⟨fun p q hpq x hx ↦ hpq x hx.symm⟩
      exact h.dest_disjoint.forall (List.mem_of_find?_eq_some hq) hp hne x ⟨hqx, hx⟩
    rw [hpq]
  case h_2 hnone =>
    rw [List.find?_eq_none] at hnone
    exact absurd hx (by simpa using hnone p hp)

/-- The image has the entry address in its place if its lowest segment starts with the ELF
header. -/
theorem entry_of_header_loaded (hfirst : first ∈ elfSegments mem ehdr) (hoffset : first.pOffset = 0)
    (hfilesz : 32 ≤ first.pFilesz.toNat) :
    load (elfMemory mem ehdr) (toPhysical first.pVaddr + 24) 8 = eEntry mem ehdr := by
  refine load_ext fun k hk ↦ ?_
  have hdest : toPhysical first.pVaddr + 24 + .ofNat 64 k - toPhysical first.pVaddr =
      .ofNat 64 (24 + k) := by
    rw [BitVec.ofNat_add]
    bv_omega
  have hlt : (toPhysical first.pVaddr + 24 + .ofNat 64 k - toPhysical first.pVaddr).toNat <
      first.pFilesz.toNat := by
    rw [hdest, BitVec.toNat_ofNat]
    omega
  rw [h.elfMemory_apply hfirst (hlt.trans_le (h.filesz first hfirst)), ElfPhdr.content, if_pos hlt,
    hdest, hoffset, BitVec.ofNat_add, ← BitVec.add_assoc]
  exact congrArg (fun a : Addr ↦ mem (a + 24 + .ofNat 64 k)) (BitVec.add_zero ehdr)

/-- The copy makes memory what the file wants it to be. -/
theorem copyLoadSegments_eq (heq : segments mem ehdr = elfSegments mem ehdr) :
    copyLoadSegments mem ehdr = elfMemory mem ehdr := by
  have hload : ∀ p ∈ segments mem ehdr, p.pType = ptLoad := fun p hp ↦
    of_decide_eq_true (List.mem_filter.mp hp).2
  have hfile := h.fileInBuffer heq
  obtain ⟨hframe, hcontent⟩ := @foldl_copySegment mem ehdr _ hload hfile.filesz
    (fun p hp q hq ↦ hfile.sourceOff hp hq) (heq ▸ h.dest_disjoint)
  rw [hfile.copyLoadSegments_eq]
  funext x
  rw [elfMemory, ← heq]
  split
  case h_1 p hp =>
    exact hcontent p (List.mem_of_find?_eq_some hp) x (by simpa using List.find?_some hp)
  case h_2 hnone =>
    rw [List.find?_eq_none] at hnone
    exact hframe x fun p hp ↦ by simpa using hnone p hp

end ElfImage

/-- **The file is read as ELF64 has it**. For every executable, the two loops take for loadable
exactly the headers whose 32-bit `p_type` is `PT_LOAD`, and `vMain_addr` is `e_entry`, if and only
if every such header is where the code looks for headers, the code sees none where the file has
none, and the loaded image has the bytes of `e_entry` 24 bytes behind its start. -/
theorem elf_read_as_format (mem : Bytes) (ehdr : Addr) (size : ℕ) (h : ElfImage mem ehdr size)
    (first : ElfPhdr) (hfirst : first ∈ elfSegments mem ehdr)
    (hlow : ∀ p ∈ elfSegments mem ehdr, first.pVaddr ≤ p.pVaddr) (freePool : Bytes → Bytes)
    (hfree : ∀ m, ∀ k < 4096, freePool m (toPhysical first.pVaddr + .ofNat 64 k) =
      m (toPhysical first.pVaddr + .ofNat 64 k)) :
    (calcLoads mem ehdr = elfLoads mem ehdr ∧
      copyLoads ehdr (phdrTable mem ehdr) (2 ^ 16) mem 0 = elfLoads mem ehdr ∧
      vMainAddr mem ehdr freePool = eEntry mem ehdr) ↔
    ((∀ o ∈ elfLoads mem ehdr, ∃ i < ePhnum mem ehdr, 56 * i = o) ∧
      ∀ i < ePhnum mem ehdr, load mem (phdrTable mem ehdr + .ofNat 64 (56 * i)) 2 = 1 →
        56 * i ∈ elfLoads mem ehdr) ∧
    load (elfMemory mem ehdr) (toPhysical first.pVaddr + 24) 8 = eEntry mem ehdr := by
  rw [← calcLoads_eq_iff (Nat.lt_of_lt_of_le (by decide) h.entsize)]
  refine and_congr_right fun hloads ↦ ?_
  have heq := segments_eq_elfSegments hloads
  have hlt : ePhnum mem ehdr < 256 ^ 2 := load_lt mem (ehdr + 56) 2
  have hcopy : copyLoads ehdr (phdrTable mem ehdr) (2 ^ 16) mem 0 = elfLoads mem ehdr := by
    rw [(h.fileInBuffer heq).copyLoads_eq (Nat.zero_add _) (by omega) fun _ _ ↦ rfl,
      ← hloads, calcLoads,
      List.range_eq_range']
  have hentry : vMainAddr mem ehdr freePool =
      load (elfMemory mem ehdr) (toPhysical first.pVaddr + 24) 8 := by
    rw [vMainAddr, calcLoadAddressRange_fst (heq ▸ hfirst) (heq ▸ hlow), h.copyLoadSegments_eq heq]
    refine load_congr fun k hk ↦ ?_
    have hoff : toPhysical first.pVaddr + 24 + .ofNat 64 k =
        toPhysical first.pVaddr + .ofNat 64 (24 + k) := by
      rw [BitVec.add_assoc, BitVec.ofNat_add]
      rfl
    rw [hoff]
    exact hfree _ _ (by omega)
  rw [hentry]
  exact and_iff_right hcopy

/-- A file at `0x200000` with one loadable segment, which is all of the file. -/
def elfFile : Bytes :=
  let ehdr : Addr := 0x200000
  let mem := store (fun _ ↦ 0) ehdr 8 0x00010102464c457f
  let mem := store mem (ehdr + 16) 8 0x00000001003e0002
  let mem := store mem (ehdr + 24) 8 0xffff800000000078
  let mem := store mem (ehdr + 32) 8 64
  let mem := store mem (ehdr + 52) 6 0x000100380040
  let mem := store mem (ehdr + 64) 8 0x0000000500000001
  let mem := store mem (ehdr + 80) 8 0xffff800000000000
  let mem := store mem (ehdr + 96) 8 128
  store mem (ehdr + 104) 8 128

/-- The same with a header of processor type 0x70000001 behind the first. -/
def processorFile : Bytes :=
  let mem := store elfFile (0x200000 + 56) 2 2
  store mem (0x200000 + 120) 4 0x70000001

/-- The segment of both files. -/
def elfFileSegment : ElfPhdr := ⟨1, 0, 0xffff800000000000, 128, 128⟩

theorem elfImage_of_segment (hsegments : elfSegments mem 0x200000 = [elfFileSegment])
    (hentsize : ePhentsize mem 0x200000 = 56) (hphoff : ePhoff mem 0x200000 = 64)
    (hphnum : ePhnum mem 0x200000 ≤ 2) : ElfImage mem 0x200000 176 := by
  refine ⟨by decide, by decide, hentsize.ge, ?_, ?_, ?_, ?_, ?_, ?_⟩
  · rw [hentsize, hphoff]
    omega
  all_goals rw [hsegments]
  · decide
  · decide
  · decide
  · exact List.pairwise_singleton _ _
  · decide +kernel

theorem elfSegments_elfFile : elfSegments elfFile 0x200000 = [elfFileSegment] := by
  decide +kernel

theorem elfImage_elfFile : ElfImage elfFile 0x200000 176 :=
  elfImage_of_segment elfSegments_elfFile (by decide +kernel) (by decide +kernel)
    (by decide +kernel)

theorem elf_read_as_format_elfFile :
    (calcLoads elfFile 0x200000 = elfLoads elfFile 0x200000 ∧
      copyLoads 0x200000 (phdrTable elfFile 0x200000) (2 ^ 16) elfFile 0 =
        elfLoads elfFile 0x200000 ∧
      vMainAddr elfFile 0x200000 id = eEntry elfFile 0x200000) ↔
    ((∀ o ∈ elfLoads elfFile 0x200000, ∃ i < ePhnum elfFile 0x200000, 56 * i = o) ∧
      ∀ i < ePhnum elfFile 0x200000,
        load elfFile (phdrTable elfFile 0x200000 + .ofNat 64 (56 * i)) 2 = 1 →
          56 * i ∈ elfLoads elfFile 0x200000) ∧
    load (elfMemory elfFile 0x200000) (toPhysical elfFileSegment.pVaddr + 24) 8 =
      eEntry elfFile 0x200000 := by
  have hfirst : elfFileSegment ∈ elfSegments elfFile 0x200000 := by
    rw [elfSegments_elfFile]
    exact List.mem_singleton_self _
  refine elf_read_as_format elfFile 0x200000 176 elfImage_elfFile elfFileSegment hfirst ?_ id
    fun _ _ _ ↦ rfl
  rw [elfSegments_elfFile]
  exact List.forall_mem_singleton.mpr (BitVec.le_refl _)

/-- The header of type 0x70000001 is taken for loadable. -/
theorem not_elf_read_as_format : ¬ ∀ mem ehdr size, ElfImage mem ehdr size →
    ∀ first ∈ elfSegments mem ehdr, (∀ p ∈ elfSegments mem ehdr, first.pVaddr ≤ p.pVaddr) →
    ∀ freePool : Bytes → Bytes,
      (∀ m, ∀ k < 4096, freePool m (toPhysical first.pVaddr + .ofNat 64 k) =
        m (toPhysical first.pVaddr + .ofNat 64 k)) →
      calcLoads mem ehdr = elfLoads mem ehdr ∧
        copyLoads ehdr (phdrTable mem ehdr) (2 ^ 16) mem 0 = elfLoads mem ehdr ∧
        vMainAddr mem ehdr freePool = eEntry mem ehdr := by
  intro h
  have hsegments : elfSegments processorFile 0x200000 = [elfFileSegment] := by decide +kernel
  have himage : ElfImage processorFile 0x200000 176 :=
    elfImage_of_segment hsegments (by decide +kernel) (by decide +kernel) (by decide +kernel)
  have hfirst : elfFileSegment ∈ elfSegments processorFile 0x200000 := by
    rw [hsegments]
    exact List.mem_singleton_self _
  have hloads := (h processorFile 0x200000 176 himage elfFileSegment hfirst
    (by rw [hsegments]; exact List.forall_mem_singleton.mpr (BitVec.le_refl _)) id
    fun _ _ _ ↦ rfl).1
  exact absurd hloads (by decide +kernel)

end VimOS
