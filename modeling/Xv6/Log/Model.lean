import Xv6.Params
import Xv6.Lib.CrashStore

/-!
# The redo log of `log.c` as seen by one process

`cache` is what `bread` returns for a block: the contents most recently given to it.
-/

namespace Xv6.RedoLog
open Lib

inductive Panic
  | tooBig      -- "too big a transaction"
  | outside     -- "log_write outside of trans"
  | committing  -- "log.committing"
  deriving DecidableEq, Repr

structure Log where
  start : ℕ
  size : ℕ
  outstanding : ℤ
  lh : List ℕ

structure Machine where
  log : Log
  cache : ℕ → Block
  disk : ℕ → Block
  issued : List (ℕ × Block)

namespace Machine

def bread (m : Machine) (b : ℕ) : Block := m.cache b

def bwrite (m : Machine) (b : ℕ) (data : Block) : Machine :=
  { m with
    cache := Function.update m.cache b data
    disk := Function.update m.disk b data
    issued := m.issued ++ [(b, data)] }

def setLh (m : Machine) (lh : List ℕ) : Machine := { m with log := { m.log with lh := lh } }

end Machine

open Machine

def headerN (hb : Block) : ℤ := (hb.word 0).toInt

def headerBlock (hb : Block) (i : ℕ) : ℕ := (hb.word (4 * (i + 1))).toNat

def putBlocks : ℕ → List ℕ → Block → Block
  | _, [], hb => hb
  | i, b :: bs, hb => putBlocks (i + 1) bs (hb.setWord (4 * (i + 1)) (BitVec.ofNat 32 b))

def putHeader (lh : List ℕ) (hb : Block) : Block :=
  putBlocks 0 lh (hb.setWord 0 (BitVec.ofNat 32 lh.length))

def getHeader (hb : Block) : List ℕ :=
  (List.range (headerN hb).toNat).map (headerBlock hb)

def readHead (m : Machine) : Machine := m.setLh (getHeader (m.bread m.log.start))

def writeHead (m : Machine) : Machine :=
  m.bwrite m.log.start (putHeader m.log.lh (m.bread m.log.start))

def installTransLoop : ℕ → List ℕ → Machine → Machine
  | _, [], m => m
  | tail, b :: bs, m =>
    installTransLoop (tail + 1) bs (m.bwrite b (m.bread (m.log.start + tail + 1)))

def installTrans (m : Machine) : Machine := installTransLoop 0 m.log.lh m

def writeLogLoop : ℕ → List ℕ → Machine → Machine
  | _, [], m => m
  | tail, b :: bs, m =>
    writeLogLoop (tail + 1) bs (m.bwrite (m.log.start + tail + 1) (m.bread b))

def writeLog (m : Machine) : Machine := writeLogLoop 0 m.log.lh m

def recoverFromLog (m : Machine) : Machine :=
  writeHead ((installTrans (readHead m)).setLh [])

def commit (m : Machine) : Machine :=
  if 0 < m.log.lh.length then
    writeHead ((installTrans (writeHead (writeLog m))).setLh [])
  else m

def absorb (lh : List ℕ) (b : ℕ) : List ℕ := if b ∈ lh then lh else lh ++ [b]

theorem length_absorb_le (lh : List ℕ) (b : ℕ) :
    (absorb lh b).length ≤ lh.length + if b ∈ lh then 0 else 1 := by
  by_cases hb : b ∈ lh
  · simp [absorb, hb]
  · simp [absorb, hb]

theorem mem_absorb (lh : List ℕ) (a b : ℕ) : a ∈ absorb lh b ↔ a ∈ lh ∨ a = b := by
  unfold absorb
  split_ifs with h
  · constructor
    · exact Or.inl
    · rintro (ha | rfl)
      · exact ha
      · exact h
  · simp

def logWrite (l : Log) (b : ℕ) : Except Panic Log :=
  if l.lh.length ≥ LOGSIZE ∨ (l.lh.length : ℤ) ≥ (l.size : ℤ) - 1 then .error .tooBig
  else if l.outstanding < 1 then .error .outside
  else .ok { l with lh := absorb l.lh b }

/-- `bread`, a change of the whole data, `log_write`, `brelse`. -/
def update (m : Machine) (u : ℕ × Block) : Except Panic Machine :=
  match logWrite m.log u.1 with
  | .error e => .error e
  | .ok l => .ok { m with log := l, cache := Function.update m.cache u.1 u.2 }

def updates : Machine → List (ℕ × Block) → Except Panic Machine
  | m, [] => .ok m
  | m, u :: us =>
    match update m u with
    | .error e => .error e
    | .ok m' => updates m' us

def boot (start size : ℕ) (d : ℕ → Block) : Machine :=
  { log := { start := start, size := size, outstanding := 0, lh := [] }
    cache := d
    disk := d
    issued := [] }

def recoverWrites (start size : ℕ) (d : ℕ → Block) : List (ℕ × Block) :=
  (recoverFromLog (boot start size d)).issued

def commitWrites (m : Machine) : List (ℕ × Block) := (commit { m with issued := [] }).issued

end Xv6.RedoLog
