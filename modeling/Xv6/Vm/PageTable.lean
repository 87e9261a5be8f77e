import Xv6.Lib.Prog
import Xv6.Vm.Kalloc

/-!
# Address spaces: the code of `vm.c`

The functions are programs over the operations on physical memory.
-/

namespace Xv6.Vm

open Lib

abbrev Word := BitVec 32

abbrev PTE_P : Word := 0x001
abbrev PTE_W : Word := 0x002
abbrev PTE_U : Word := 0x004

def pteAddr (w : Word) : Frame := w.toNat / PGSIZE

def pteFlags (w : Word) : Word := w &&& 0xFFF

def pteOf (f : Frame) (flags : Word) : Word := BitVec.ofNat 32 (f * PGSIZE) ||| flags

def pdx (va : ℕ) : ℕ := va / 2 ^ 22 % NPDENTRIES

def ptx (va : ℕ) : ℕ := va / 2 ^ 12 % NPTENTRIES

/-- The operations on memory; `write` is a `memmove` into one page, with the source given as
a function of the index. -/
inductive Op : Type → Type
  | kalloc : Op (Option Frame)
  | kfree (f : Frame) : Op Unit
  | load (f : Frame) (i : ℕ) : Op Word
  | store (f : Frame) (i : ℕ) (w : Word) : Op Unit
  | memset (f : Frame) (b : Byte) : Op Unit
  | memmove (dst src : Frame) : Op Unit
  | write (f : Frame) (off len : ℕ) (src : ℕ → Byte) : Op Unit

abbrev VmProg := Prog Op Panic

def Kmem.word (m : Kmem) (f : Frame) (i : ℕ) : Word := (m.page f).word (4 * i)

def perform (K : Image) : Prog.Handler Op Panic Kmem
  | _, .kalloc, m => .ok (kalloc m)
  | _, .kfree f, m => (kfree K m f).map fun m => ((), m)
  | _, .load f i, m => .ok (m.word f i, m)
  | _, .store f i w, m => .ok ((), m.setPage f ((m.page f).setWord (4 * i) w))
  | _, .memset f b, m => .ok ((), m.setPage f fun _ => b)
  | _, .memmove dst src, m => .ok ((), m.setPage dst (m.page src))
  | _, .write f off len src, m =>
    if K.Managed f then .ok ((), m.setPage f ((m.page f).blit off len src)) else .error .trap

namespace VmProg

def kalloc : VmProg (Option Frame) := Prog.call .kalloc
def kfree (f : Frame) : VmProg Unit := Prog.call (.kfree f)
def load (f : Frame) (i : ℕ) : VmProg Word := Prog.call (.load f i)
def store (f : Frame) (i : ℕ) (w : Word) : VmProg Unit := Prog.call (.store f i w)
def memset (f : Frame) (b : Byte) : VmProg Unit := Prog.call (.memset f b)
def memmove (dst src : Frame) : VmProg Unit := Prog.call (.memmove dst src)
def write (f : Frame) (off len : ℕ) (src : ℕ → Byte) : VmProg Unit :=
  Prog.call (.write f off len src)
def panic {α : Type} (e : Panic) : VmProg α := .fault e

end VmProg

open VmProg (load store memset memmove write panic)

def walkpgdir (pgdir : Frame) (va : ℕ) (alloc : Bool) : VmProg (Option (Frame × ℕ)) := do
  let pde ← load pgdir (pdx va)
  if pde &&& PTE_P ≠ 0 then pure (some (pteAddr pde, ptx va))
  else if alloc = false then pure none
  else do
    match ← VmProg.kalloc with
    | none => pure none
    | some pgtab => do
      memset pgtab 0
      store pgdir (pdx va) (pteOf pgtab (PTE_P ||| PTE_W ||| PTE_U))
      pure (some (pgtab, ptx va))

def mapPage (pgdir : Frame) (perm : Word) (a : ℕ) (pa : Frame) : VmProg Bool := do
  match ← walkpgdir pgdir a true with
  | none => pure false
  | some (pgtab, i) => do
    let pte ← load pgtab i
    if pte &&& PTE_P ≠ 0 then panic .remap
    else do
      store pgtab i (pteOf pa (perm ||| PTE_P))
      pure true

def mapLoop (pgdir : Frame) (perm : Word) : ℕ → ℕ → Frame → VmProg Bool
  | 0, a, pa => mapPage pgdir perm a pa
  | n + 1, a, pa => do
    if ← mapPage pgdir perm a pa then
      mapLoop pgdir perm n ((a + PGSIZE) % 2 ^ 32) ((pa + 1) % 2 ^ 20)
    else pure false

def mappages (pgdir : Frame) (va size : ℕ) (pa : Frame) (perm : Word) : VmProg Bool :=
  let a := pgrounddown va
  let last := pgrounddown ((va + size + 2 ^ 32 - 1) % 2 ^ 32)
  mapLoop pgdir perm ((last + 2 ^ 32 - a) % 2 ^ 32 / PGSIZE) a pa

structure Kmap where
  virt : ℕ
  physStart : ℕ
  physEnd : ℕ
  perm : Word

def kmap (K : Image) : List Kmap :=
  [⟨KERNBASE, 0, EXTMEM, PTE_W⟩,
   ⟨KERNLINK, KERNLINK - KERNBASE, K.data - KERNBASE, 0⟩,
   ⟨K.data, K.data - KERNBASE, PHYSTOP, PTE_W⟩,
   ⟨DEVSPACE, DEVSPACE, 0, PTE_W⟩]

def kmapLoop (pgdir : Frame) : List Kmap → VmProg Bool
  | [] => pure true
  | k :: ks => do
    if ← mappages pgdir k.virt ((k.physEnd + 2 ^ 32 - k.physStart) % 2 ^ 32)
        (k.physStart / PGSIZE) k.perm then kmapLoop pgdir ks
    else pure false

def deallocLoop (pgdir : Frame) (oldsz a : ℕ) : VmProg Unit :=
  if h : a < oldsz then do
    match ← walkpgdir pgdir a false with
    -- `a = PGADDR(PDX(a) + 1, 0, 0) - PGSIZE`, and then `a += PGSIZE`; no wrap below `KERNBASE`
    | none => deallocLoop pgdir oldsz ((a / 2 ^ 22 + 1) * 2 ^ 22)
    | some (pgtab, i) => do
      let pte ← load pgtab i
      if pte &&& PTE_P ≠ 0 then
        if pteAddr pte = 0 then panic .kfree
        else do
          VmProg.kfree (pteAddr pte)
          store pgtab i 0
          deallocLoop pgdir oldsz (a + PGSIZE)
      else deallocLoop pgdir oldsz (a + PGSIZE)
  else pure ()
termination_by oldsz - a
decreasing_by
  · have := Nat.lt_mul_div_succ a (b := 2 ^ 22) (by decide)
    omega
  · simp only [PGSIZE]
    omega
  · simp only [PGSIZE]
    omega

def deallocuvm (pgdir : Frame) (oldsz newsz : ℕ) : VmProg ℕ :=
  if oldsz ≤ newsz then pure oldsz
  else do
    deallocLoop pgdir oldsz (pgroundup newsz)
    pure newsz

def freeTables (pgdir : Frame) : List ℕ → VmProg Unit
  | [] => pure ()
  | i :: is => do
    let pde ← load pgdir i
    if pde &&& PTE_P ≠ 0 then do
      VmProg.kfree (pteAddr pde)
      freeTables pgdir is
    else freeTables pgdir is

def freevm (pgdir : Frame) : VmProg Unit := do
  let _ ← deallocuvm pgdir KERNBASE 0
  freeTables pgdir (List.range NPDENTRIES)
  VmProg.kfree pgdir

def setupkvm (K : Image) : VmProg (Option Frame) := do
  match ← VmProg.kalloc with
  | none => pure none
  | some pgdir => do
    memset pgdir 0
    if DEVSPACE < KERNBASE + PHYSTOP then panic .physTooHigh
    else if ← kmapLoop pgdir (kmap K) then pure (some pgdir)
    else do
      freevm pgdir
      pure none

def allocLoop (pgdir : Frame) (oldsz newsz a : ℕ) : VmProg ℕ :=
  if a < newsz then do
    match ← VmProg.kalloc with
    | none => do
      let _ ← deallocuvm pgdir newsz oldsz
      pure 0
    | some mem => do
      memset mem 0
      if ← mappages pgdir a PGSIZE mem (PTE_W ||| PTE_U) then
        allocLoop pgdir oldsz newsz (a + PGSIZE)
      else do
        let _ ← deallocuvm pgdir newsz oldsz
        VmProg.kfree mem
        pure 0
  else pure newsz
termination_by newsz - a
decreasing_by
  simp only [PGSIZE]
  omega

def allocuvm (pgdir : Frame) (oldsz newsz : ℕ) : VmProg ℕ :=
  if KERNBASE ≤ newsz then pure 0
  else if newsz < oldsz then pure oldsz
  else allocLoop pgdir oldsz newsz (pgroundup oldsz)

def clearpteu (pgdir : Frame) (uva : ℕ) : VmProg Unit := do
  match ← walkpgdir pgdir uva false with
  | none => panic .clearpteu
  | some (pgtab, i) => do
    let pte ← load pgtab i
    store pgtab i (pte &&& ~~~PTE_U)

def copyLoop (pgdir d : Frame) (sz i : ℕ) : VmProg Bool :=
  if i < sz then do
    match ← walkpgdir pgdir i false with
    | none => panic .copyuvmExist
    | some (pgtab, j) => do
      let pte ← load pgtab j
      if pte &&& PTE_P = 0 then panic .copyuvmPresent
      else do
        match ← VmProg.kalloc with
        | none => pure false
        | some mem => do
          memmove mem (pteAddr pte)
          if ← mappages d i PGSIZE mem (pteFlags pte) then copyLoop pgdir d sz (i + PGSIZE)
          else do
            VmProg.kfree mem
            pure false
  else pure true
termination_by sz - i
decreasing_by
  simp only [PGSIZE]
  omega

def copyuvm (K : Image) (pgdir : Frame) (sz : ℕ) : VmProg (Option Frame) := do
  match ← setupkvm K with
  | none => pure none
  | some d => do
    if ← copyLoop pgdir d sz 0 then pure (some d)
    else do
      freevm d
      pure none

/-- What is at address 0 of the address space that the processor uses. -/
def readNull (cur : Frame) : VmProg Word := do
  match ← walkpgdir cur 0 false with
  | none => panic .trap
  | some (pgtab, i) => do
    let pte ← load pgtab i
    if pte &&& PTE_P = 0 then panic .trap
    else load (pteAddr pte) 0

def uva2ka (cur pgdir : Frame) (uva : ℕ) : VmProg (Option Frame) := do
  let pte ← match ← walkpgdir pgdir uva false with
    -- the code does not test for the null pointer
    | none => readNull cur
    | some (pgtab, i) => load pgtab i
  if pte &&& PTE_P = 0 then pure none
  else if pte &&& PTE_U = 0 then pure none
  else pure (some (pteAddr pte))

def copyout (cur pgdir : Frame) (va : ℕ) (p : ℕ → Byte) (len : ℕ) : VmProg Bool :=
  if h : 0 < len then do
    let va0 := pgrounddown va
    match ← uva2ka cur pgdir va0 with
    | none => pure false
    | some pa0 => do
      let n := min (PGSIZE - (va - va0)) len
      write pa0 (va - va0) n p
      copyout cur pgdir ((va0 + PGSIZE) % 2 ^ 32) (fun i => p (n + i)) (len - n)
  else pure true
termination_by len
decreasing_by
  have := Nat.lt_div_mul_add (a := va) (b := PGSIZE) (by decide)
  simp only [pgrounddown, PGSIZE] at *
  omega

end Xv6.Vm
