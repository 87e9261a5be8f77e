import Xv6.Log.Model
import Xv6.Lib.Runs

/-!
# The buffer cache

`bget`, `bread`, `bwrite` and `brelse` of `bio.c`, with `log_write`, by any number of processes.
-/

namespace Xv6.Bio

open Lib
open Function (update)

structure Addr where
  dev : ℕ
  blockno : ℕ
  deriving DecidableEq

inductive Call (P β : Type*)
  | bread (p : P) (k : Addr) (x : β)
  | modify (p : P) (k : Addr) (x : β)
  | brelse (p : P) (k : Addr)

structure BlockStore (P β : Type*) where
  contents : Addr → β
  holder : Addr → Option P

namespace BlockStore

variable {P β : Type*} [DecidableEq P] [DecidableEq β]

def new (disk : Addr → β) : BlockStore P β := ⟨disk, fun _ => none⟩

def step (b : BlockStore P β) : Call P β → Option (BlockStore P β)
  | .bread p k x =>
    if b.holder k = none ∧ x = b.contents k then
      some { b with holder := update b.holder k (some p) }
    else none
  | .modify p k x =>
    if b.holder k = some p then some { b with contents := update b.contents k x } else none
  | .brelse p k =>
    if b.holder k = some p then some { b with holder := update b.holder k none } else none

end BlockStore

structure Buf (β : Type*) where
  key : Addr
  valid : Bool
  dirty : Bool
  refcnt : ℕ
  data : β

abbrev Slot := Fin NBUF

inductive Use
  | idle
  | waiting (i : Slot)
  | locked (i : Slot)
  | reading (i : Slot)
  | holding (i : Slot) (modified : Bool)
  | writing (i : Slot)
  | leaving (i : Slot)
  deriving DecidableEq

def Use.slot : Use → Option Slot
  | .idle => none
  | .waiting i | .locked i | .reading i | .holding i _ | .writing i | .leaving i => some i

def Use.lock : Use → Option Slot
  | .idle | .waiting _ | .leaving _ => none
  | .locked i | .reading i | .holding i _ | .writing i => some i

def Use.Holds : Use → Prop
  | .holding _ _ | .writing _ => True
  | _ => False

structure State (P β : Type*) where
  buf : Slot → Buf β
  order : List Slot
  lock : Slot → Option P
  use : P → Use
  asked : P → Addr
  disk : Addr → β
  log : RedoLog.Log
  committing : Bool
  sealed : Bool
  logged : List Addr
  calls : List (Call P β)

inductive Event (P β : Type*)
  | bget (p : P) (k : Addr)
  | acquiresleep (p : P)
  | bread (p : P)
  | iderw (p : P)
  | modify (p : P) (x : β)
  | logWrite (p : P)
  | bwrite (p : P)
  | brelse (p : P)
  | unref (p : P)
  | beginOp
  | endOp
  | writeHead
  | erase
  | commitDone

variable {P β : Type*} [DecidableEq P]

namespace State

def setBuf (s : State P β) (i : Slot) (x : Buf β) : State P β :=
  { s with buf := update s.buf i x }

def setUse (s : State P β) (p : P) (u : Use) : State P β :=
  { s with use := update s.use p u }

def setLock (s : State P β) (i : Slot) (o : Option P) : State P β :=
  { s with lock := update s.lock i o }

def record (s : State P β) (c : Call P β) : State P β := { s with calls := s.calls ++ [c] }

end State

def cached (s : State P β) (k : Addr) : Option Slot := s.order.find? fun i => (s.buf i).key = k

def unused (s : State P β) : Option Slot :=
  s.order.reverse.find? fun i => (s.buf i).refcnt = 0 ∧ (s.buf i).dirty = false

def bget (s : State P β) (k : Addr) : Option (Slot × Buf β) :=
  match cached s k with
  | some i => some (i, { s.buf i with refcnt := (s.buf i).refcnt + 1 })
  | none =>
    (unused s).map fun i =>
      (i, { s.buf i with key := k, valid := false, dirty := false, refcnt := 1 })

def iderw (s : State P β) (i : Slot) : Option (State P β) :=
  if (s.buf i).dirty then
    some { s.setBuf i { s.buf i with dirty := false, valid := true } with
      disk := update s.disk (s.buf i).key (s.buf i).data }
  else if (s.buf i).valid = false then
    some (s.setBuf i { s.buf i with data := s.disk (s.buf i).key, valid := true })
  else none

def returned (s : State P β) (p : P) (i : Slot) : State P β :=
  (s.setUse p (.holding i false)).record (.bread p (s.asked p) (s.buf i).data)

def unref (s : State P β) (i : Slot) : State P β :=
  let t := s.setBuf i { s.buf i with refcnt := (s.buf i).refcnt - 1 }
  if (s.buf i).refcnt - 1 = 0 then { t with order := i :: s.order.erase i } else t

def step (s : State P β) : Event P β → Option (State P β)
  | .bget p k =>
    if s.use p = .idle then
      (bget s k).map fun r =>
        { (s.setBuf r.1 r.2).setUse p (.waiting r.1) with asked := update s.asked p k }
    else none
  | .acquiresleep p =>
    match s.use p with
    | .waiting i =>
      if s.lock i = none then some ((s.setLock i (some p)).setUse p (.locked i)) else none
    | _ => none
  | .bread p =>
    match s.use p with
    | .locked i =>
      if (s.buf i).valid = false then some (s.setUse p (.reading i)) else some (returned s p i)
    | _ => none
  | .iderw p =>
    match s.use p with
    | .reading i => (iderw s i).map (returned · p i)
    | .writing i => (iderw s i).map (·.setUse p (.holding i false))
    | _ => none
  | .modify p x =>
    match s.use p with
    | .holding i _ =>
      some (((s.setBuf i { s.buf i with data := x }).setUse p (.holding i true)).record
        (.modify p (s.asked p) x))
    | _ => none
  | .logWrite p =>
    match s.use p with
    | .holding i _ =>
      match RedoLog.logWrite s.log (s.buf i).key.blockno with
      | .ok l =>
        some { (s.setBuf i { s.buf i with dirty := true }).setUse p (.holding i false) with
          log := l
          logged := (s.buf i).key :: s.logged }
      | .error _ => none
    | _ => none
  | .bwrite p =>
    match s.use p with
    | .holding i _ => some ((s.setBuf i { s.buf i with dirty := true }).setUse p (.writing i))
    | _ => none
  | .brelse p =>
    match s.use p with
    | .holding i false =>
      some (((s.setLock i none).setUse p (.leaving i)).record (.brelse p (s.asked p)))
    | _ => none
  | .unref p =>
    match s.use p with
    | .leaving i => some ((unref s i).setUse p .idle)
    | _ => none
  | .beginOp =>
    if s.committing = false ∧
        (s.log.lh.length : ℤ) + (s.log.outstanding + 1) * MAXOPBLOCKS ≤ LOGSIZE then
      some { s with log := { s.log with outstanding := s.log.outstanding + 1 } }
    else none
  | .endOp =>
    if s.committing = false then
      some { s with
        log := { s.log with outstanding := s.log.outstanding - 1 }
        committing := decide (s.log.outstanding - 1 = 0) }
    else none
  | .writeHead =>
    if s.committing ∧ s.sealed = false ∧ s.log.lh ≠ [] then
      some { s with sealed := true, logged := [] }
    else none
  | .erase =>
    if s.sealed then some { s with log := { s.log with lh := [] }, sealed := false } else none
  | .commitDone =>
    if s.committing ∧ s.log.lh = [] then some { s with committing := false } else none

def binit (zero : β) (log : RedoLog.Log) (disk : Addr → β) : State P β where
  buf _ := ⟨⟨0, 0⟩, false, false, 0, zero⟩
  order := (List.finRange NBUF).reverse
  lock _ := none
  use _ := .idle
  asked _ := ⟨0, 0⟩
  disk := disk
  log := log
  committing := false
  sealed := false
  logged := []
  calls := []

end Xv6.Bio
