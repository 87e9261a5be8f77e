import Xv6.Lib.Bytes

/-!
# The physical page allocator of `kalloc.c`

A page of physical memory is named by its number: the frame `f` is the page at physical address `f
* PGSIZE`, which the kernel reaches at `P2V(f * PGSIZE)`.
-/

namespace Xv6.Vm

abbrev PGSIZE : ℕ := 4096
abbrev NPDENTRIES : ℕ := 1024
abbrev NPTENTRIES : ℕ := 1024

abbrev EXTMEM : ℕ := 0x100000
abbrev PHYSTOP : ℕ := 0xE000000
abbrev DEVSPACE : ℕ := 0xFE000000
abbrev KERNBASE : ℕ := 0x80000000
abbrev KERNLINK : ℕ := KERNBASE + EXTMEM

def pgroundup (a : ℕ) : ℕ := (a + PGSIZE - 1) % 2 ^ 32 / PGSIZE * PGSIZE

def pgrounddown (a : ℕ) : ℕ := a / PGSIZE * PGSIZE

/-- The symbols of the linked kernel that the code refers to. -/
structure Image where
  data : ℕ
  kend : ℕ
  data_aligned : data % PGSIZE = 0
  text_before : KERNLINK < data
  data_before : data ≤ kend
  booted : kend ≤ KERNBASE + 4 * 1024 * 1024

/-- What ends the kernel: its panics, and the use of a null pointer, which the language leaves
undefined. -/
inductive Panic where
  | kfree
  | remap
  | physTooHigh
  | loaduvmAligned
  | loaduvmExist
  | clearpteu
  | copyuvmExist
  | copyuvmPresent
  | userinit
  | filedup
  | fileclose
  | initExiting
  | trap
deriving DecidableEq

abbrev Frame := ℕ

abbrev Page := Lib.Bytes PGSIZE

structure Kmem where
  freelist : List Frame
  page : Frame → Page

def Image.Managed (K : Image) (f : ℕ) : Prop :=
  K.kend ≤ f * PGSIZE + KERNBASE ∧ f * PGSIZE < PHYSTOP

instance (K : Image) (f : ℕ) : Decidable (K.Managed f) := inferInstanceAs (Decidable (_ ∧ _))

def kalloc (m : Kmem) : Option Frame × Kmem :=
  match m.freelist with
  | [] => (none, m)
  | f :: fs => (some f, { m with freelist := fs })

def Kmem.setPage (m : Kmem) (f : Frame) (x : Page) : Kmem :=
  { m with page := Function.update m.page f x }

def Kmem.freed (m : Kmem) (f : Frame) : Kmem :=
  let m := m.setPage f fun _ => 1
  { m with freelist := f :: m.freelist }

def kfree (K : Image) (m : Kmem) (f : Frame) : Except Panic Kmem :=
  if f * PGSIZE + KERNBASE < K.kend ∨ PHYSTOP ≤ f * PGSIZE then .error .kfree
  else .ok (m.freed f)

variable {K : Image} {m : Kmem} {f : Frame}

theorem Kmem.mem_freed {q : Frame} : q ∈ (m.freed f).freelist ↔ q = f ∨ q ∈ m.freelist :=
  List.mem_cons

theorem kfree_of_managed (hf : K.Managed f) : kfree K m f = .ok (m.freed f) := by
  obtain ⟨hlo, hhi⟩ := hf
  rw [kfree, if_neg (not_or.mpr ⟨Nat.not_lt.mpr hlo, Nat.not_le.mpr hhi⟩)]

end Xv6.Vm
