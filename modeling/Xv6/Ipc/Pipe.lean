import Xv6.Params
import Xv6.Lib.Monitor
import Xv6.Lib.Ring

/-!
# Pipes

`pipewrite`, `piperead` and `pipeclose` as code under `p->lock`, by any number of processes. A
location is a place in one of the three functions, with its local variables.
-/

namespace Xv6.Pipes

open Lib Lib.Monitor Function

abbrev PIPESIZE : ℕ := 512

inductive Chan
  | nread | nwrite
  deriving DecidableEq

inductive Loc
  | ret (r : ℤ)
  | writeLoop (addr : List Byte) (i since : ℕ)
  | writeSleep (addr : List Byte) (i : ℕ)
  | writeRet (addr : List Byte)
  | readWait (n : ℕ)
  | readCopy (n : ℕ) (got : List Byte)
  | readRet (got : List Byte)
  | close (writable : Bool)
  | closeWake (writable : Bool)
  | closeRet
  deriving DecidableEq

structure Pipe (P : Type*) extends Ring 32 Byte where
  readopen : Bool
  writeopen : Bool
  inserted : List (P × Byte)
  returned : List (List Byte)
  wrote : P → List Byte

variable {P : Type*} [DecidableEq P]

namespace Pipe

def full (x : Pipe P) : Bool := x.nwrite = x.nread + BitVec.ofNat 32 PIPESIZE

def empty (x : Pipe P) : Bool := x.nread = x.nwrite

def put (x : Pipe P) (p : P) (b : Byte) : Pipe P :=
  { x with toRing := x.toRing.push PIPESIZE b, inserted := x.inserted ++ [(p, b)] }

def take (x : Pipe P) : Pipe P := { x with toRing := x.toRing.pop }

def written (x : Pipe P) (p : P) (bs : List Byte) : Pipe P :=
  { x with wrote := update x.wrote p (x.wrote p ++ bs) }

end Pipe

def pipewriteLoop (p : P) (killed : Bool) (addr : List Byte) (i since : ℕ) (x : Pipe P) :
    Act Loc Chan (Pipe P) :=
  match addr[i]? with
  | none => .wakeup .nread (.writeRet addr)
  | some b =>
    if x.full then
      if x.readopen = false ∨ killed then .release (.ret (-1)) (x.written p (addr.take i))
      else .wakeup .nread (.writeSleep addr i)
    else .goto (.writeLoop addr (i + 1) (since + 1)) (x.put p b)

def body (p : P) (killed : Bool) : Loc → Pipe P → Act Loc Chan (Pipe P)
  | .ret r, x => .release (.ret r) x
  | .writeLoop addr i since, x => pipewriteLoop p killed addr i since x
  | .writeSleep addr i, _ => .sleep .nwrite (.writeLoop addr i 0)
  | .writeRet addr, x => .release (.ret addr.length) (x.written p addr)
  | .readWait n, x =>
    if x.empty ∧ x.writeopen then
      if killed then .release (.ret (-1)) x else .sleep .nread (.readWait n)
    else .goto (.readCopy n []) x
  | .readCopy n got, x =>
    if got.length < n ∧ x.empty = false then
      .goto (.readCopy n (got ++ [x.front PIPESIZE])) x.take
    else .wakeup .nwrite (.readRet got)
  | .readRet got, x => .release (.ret got.length) { x with returned := x.returned ++ [got] }
  | .close writable, x =>
    .goto (.closeWake writable)
      (if writable then { x with writeopen := false } else { x with readopen := false })
  | .closeWake writable, _ => .wakeup (if writable then .nread else .nwrite) .closeRet
  | .closeRet, x => .release (.ret 0) x

def entry : Loc → Bool
  | .writeLoop _ 0 0 | .readWait _ | .close _ => true
  | _ => false

def code : Code P Loc Chan (Pipe P) := ⟨entry, body⟩

abbrev State (P : Type*) := Monitor.State P Loc Chan (Pipe P)

def start (r : Ring 32 Byte) (readopen writeopen : Bool) : State P :=
  Monitor.initial (.ret 0) ⟨r, readopen, writeopen, [], [], fun _ => []⟩

omit [DecidableEq P] in
theorem full_iff (x : Pipe P) : x.full = true ↔ x.count = PIPESIZE := by
  rw [Pipe.full, decide_eq_true_eq]
  exact x.toRing.full_iff (by decide)

omit [DecidableEq P] in
theorem empty_iff (x : Pipe P) : x.empty = true ↔ x.count = 0 := by
  rw [Pipe.empty, decide_eq_true_eq]
  exact x.toRing.empty_iff

def Loc.copied : Loc → List Byte
  | .readCopy _ got | .readRet got => got
  | _ => []

/-- Between the bytes returned and those still in the pipe are the bytes `copied`. -/
structure Bytes (init copied : List Byte) (x : Pipe P) : Prop where
  bound : x.count ≤ PIPESIZE
  bytes : x.returned.flatten ++ copied ++ x.contents PIPESIZE = init ++ x.inserted.map Prod.snd

def Loc.Ready : Loc → Prop
  | .writeLoop _ _ since => since = 0
  | .readWait _ | .close _ => True
  | _ => False

def Loc.Done (l : Loc) : Prop := ∃ r, l = .ret r

def At (init : List Byte) (l : Loc) (x : Pipe P) : Prop :=
  Bytes init l.copied x ∧ match l with
    | .writeLoop _ _ since => since ≤ x.count
    | .writeSleep _ _ => x.count = PIPESIZE ∧ x.readopen = true
    | _ => True

variable {init : List Byte}

omit [DecidableEq P] in
theorem Bytes.put {x : Pipe P} {p : P} {b : Byte} (h : Bytes init [] x)
    (hfull : x.full = false) : Bytes init [] (x.put p b) ∧ (x.put p b).count = x.count + 1 := by
  have hlt : x.count < PIPESIZE := by
    refine lt_of_le_of_ne h.bound fun heq => ?_
    rw [(full_iff x).mpr heq] at hfull
    cases hfull
  have hcount : (x.put p b).count = x.count + 1 :=
    Ring.count_push (by
      have : PIPESIZE < 2 ^ 32 := by decide
      omega)
  refine ⟨⟨by omega, ?_⟩, hcount⟩
  have hpush : (x.put p b).contents PIPESIZE = x.contents PIPESIZE ++ [b] :=
    Ring.contents_push (by decide) (by decide) hlt
  have hbytes := h.bytes
  rw [List.append_nil] at hbytes ⊢
  rw [hpush]
  change x.returned.flatten ++ (x.contents PIPESIZE ++ [b]) =
    init ++ (x.inserted ++ [(p, b)]).map Prod.snd
  rw [← List.append_assoc, hbytes, List.map_append, List.append_assoc]
  rfl

omit [DecidableEq P] in
theorem Bytes.take {init got : List Byte} {x : Pipe P} (h : Bytes init got x)
    (hne : x.empty = false) : Bytes init (got ++ [x.front PIPESIZE]) x.take := by
  have hpos : 0 < x.count := by
    refine Nat.pos_of_ne_zero fun heq => ?_
    rw [(empty_iff x).mpr heq] at hne
    cases hne
  have hcount : x.take.count + 1 = x.count := Ring.count_pop hpos
  have hpop : x.contents PIPESIZE = x.front PIPESIZE :: x.take.contents PIPESIZE :=
    Ring.contents_pop (by decide) hpos
  refine ⟨by have := h.bound; omega, ?_⟩
  have hbytes := h.bytes
  rw [hpop] at hbytes
  rw [← List.append_assoc, List.append_assoc _ [_]]
  exact hbytes

theorem restores (init : List Byte) (p : P) (killed : Bool) (l : Loc) (x : Pipe P)
    (h : At init l x) :
    Restores (Bytes init []) Loc.Ready Loc.Done (At init) x (body p killed l x) := by
  obtain ⟨hb, hl⟩ := h
  cases l with
  | ret r => exact ⟨⟨hb.bound, hb.bytes⟩, r, rfl⟩
  | writeLoop addr i since =>
    simp only [body, pipewriteLoop]
    cases addr[i]? with
    | none => exact ⟨⟨hb.bound, hb.bytes⟩, trivial⟩
    | some b =>
      dsimp only
      split_ifs with hfull hfail
      · exact ⟨⟨hb.bound, hb.bytes⟩, _, rfl⟩
      · simp only [not_or, Bool.not_eq_false, Bool.not_eq_true] at hfail
        exact ⟨⟨hb.bound, hb.bytes⟩, (full_iff x).mp hfull, hfail.1⟩
      · obtain ⟨hput, hcount⟩ := Bytes.put (p := p) (b := b) hb (by simpa using hfull)
        exact ⟨hput, by simp only at hl ⊢; omega⟩
  | writeSleep addr i => exact ⟨⟨hb.bound, hb.bytes⟩, rfl⟩
  | writeRet addr | closeRet => exact ⟨⟨hb.bound, hb.bytes⟩, _, rfl⟩
  | readWait n =>
    simp only [body]
    split_ifs with hwait hkill
    · exact ⟨⟨hb.bound, hb.bytes⟩, _, rfl⟩
    · exact ⟨⟨hb.bound, hb.bytes⟩, trivial⟩
    · exact ⟨⟨hb.bound, hb.bytes⟩, trivial⟩
  | readCopy n got =>
    simp only [body]
    split_ifs with hmore
    · exact ⟨hb.take hmore.2, trivial⟩
    · exact ⟨⟨hb.bound, hb.bytes⟩, trivial⟩
  | readRet got =>
    refine ⟨⟨hb.bound, ?_⟩, _, rfl⟩
    have hbytes := hb.bytes
    change (x.returned ++ [got]).flatten ++ [] ++ x.contents PIPESIZE = _
    rw [List.flatten_append, List.flatten_singleton, List.append_nil]
    exact hbytes
  | close writable =>
    simp only [body]
    split_ifs
    · exact ⟨⟨hb.bound, hb.bytes⟩, trivial⟩
    · exact ⟨⟨hb.bound, hb.bytes⟩, trivial⟩
  | closeWake writable => exact ⟨⟨hb.bound, hb.bytes⟩, trivial⟩

omit [DecidableEq P] in
theorem at_of_ready {l : Loc} {x : Pipe P} (hx : Bytes init [] x)
    (hready : l.Ready) : At init l x := by
  cases l with
  | writeLoop addr i since => exact ⟨hx, (show since = 0 from hready) ▸ Nat.zero_le _⟩
  | readWait n | close writable => exact ⟨hx, trivial⟩
  | ret _ | writeSleep _ _ | writeRet _ | readCopy _ _ | readRet _ | closeWake _ | closeRet =>
    exact hready.elim

theorem ready_of_entry {l : Loc} (h : entry l = true) : l.Ready := by
  cases l with
  | writeLoop addr i since =>
    cases i with
    | zero =>
      cases since with
      | zero => rfl
      | succ n => cases h
    | succ n => cases h
  | readWait n => trivial
  | close writable => trivial
  | ret _ | writeSleep _ _ | writeRet _ | readCopy _ _ | readRet _ | closeWake _ | closeRet =>
    cases h

def Loc.progress : Loc → List Byte
  | .writeLoop addr i _ | .writeSleep addr i => addr.take i
  | .writeRet addr => addr
  | _ => []

def Own (p : P) (l : Loc) (x : Pipe P) : Prop :=
  (x.inserted.filter (·.1 = p)).map Prod.snd = x.wrote p ++ l.progress

theorem Own.other {p q : P} {l : Loc} {x y : Pipe P} (hq : q ≠ p)
    (hins : y.inserted = x.inserted ∨ ∃ b, y.inserted = x.inserted ++ [(p, b)])
    (hw : y.wrote q = x.wrote q) (h : Own q l x) : Own q l y := by
  unfold Own at h ⊢
  rw [hw, ← h]
  rcases hins with hins | ⟨b, hins⟩
  · rw [hins]
  · rw [hins, List.filter_append]
    simp [Ne.symm hq]

theorem keeps (p : P) (killed : Bool) (l : Loc) (x : Pipe P) :
    Keeps Own p l x (body p killed l x) := by
  -- A return adds the bytes of the call to those of the earlier ones.
  have hret : ∀ bs r, (Own p l x → (x.inserted.filter (·.1 = p)).map Prod.snd = x.wrote p ++ bs) →
      Keeps Own p l x (.release (.ret r) (x.written p bs) : Act Loc Chan (Pipe P)) := by
    intro bs r hbs
    refine ⟨fun h => ?_, fun q m hq h => Own.other (x := x) hq (.inl rfl) ?_ h⟩
    · simp only [Own, Pipe.written, update_self, Loc.progress, List.append_nil]
      exact hbs h
    · simp only [Pipe.written, update_of_ne hq]
  cases l with
  | ret r | readRet got | closeRet => exact ⟨id, fun _ _ _ => id⟩
  | writeLoop addr i since =>
    simp only [body, pipewriteLoop]
    cases haddr : addr[i]? with
    | none =>
      intro h
      have hlen : addr.length ≤ i := List.getElem?_eq_none_iff.mp haddr
      simpa only [Own, Loc.progress, List.take_of_length_le hlen] using h
    | some b =>
      dsimp only
      split_ifs
      · exact hret _ _ fun h => h
      · exact fun h => h
      · refine ⟨fun h => ?_, fun q m hq h => Own.other hq (.inr ⟨b, rfl⟩) rfl h⟩
        have htake : addr.take (i + 1) = addr.take i ++ [b] := by
          rw [List.take_add_one, haddr]
          rfl
        have h' : (x.inserted.filter (·.1 = p)).map Prod.snd = x.wrote p ++ addr.take i := h
        change ((x.inserted ++ [(p, b)]).filter (·.1 = p)).map Prod.snd =
          x.wrote p ++ addr.take (i + 1)
        rw [List.filter_append, List.map_append, h', htake, List.append_assoc]
        simp
  | writeSleep addr i => exact fun h => h
  | writeRet addr => exact hret _ _ fun h => h
  | readWait n =>
    simp only [body]
    split_ifs
    · exact ⟨id, fun _ _ _ => id⟩
    · exact fun h => h
    · exact ⟨id, fun _ _ _ => id⟩
  | readCopy n got =>
    simp only [body]
    split_ifs
    · exact ⟨id, fun _ _ _ => id⟩
    · exact fun h => h
  | close writable =>
    simp only [body]
    split_ifs
    · exact ⟨id, fun _ _ _ => id⟩
    · exact ⟨id, fun _ _ _ => id⟩
  | closeWake writable => exact fun h => h

def Wait (c : Chan) (x : Pipe P) : Prop :=
  match c with
  | .nread => x.count = 0 ∧ x.writeopen = true
  | .nwrite => x.count = PIPESIZE ∧ x.readopen = true

def Owes (l : Loc) (x : Pipe P) (c : Chan) : Prop :=
  match l, c with
  | .writeLoop _ _ since, .nread => 0 < since ∧ x.count = since
  | .readCopy _ got, .nwrite => got ≠ []
  | .closeWake true, .nread => True
  | .closeWake false, .nwrite => True
  | _, _ => False

def FilledBefore (s : State P) : Event P Loc → Prop
  | .run p =>
    match s.place p with
    | .inside (.writeLoop addr i since) =>
      i < addr.length → s.shared.full = true →
        s.shared.readopen = false ∨ s.killed p = true → since < PIPESIZE
    | _ => True
  | _ => True

instance (s : State P) (e : Event P Loc) : Decidable (FilledBefore s e) := by
  unfold FilledBefore
  split
  · split <;> infer_instance
  · infer_instance

def NoRoom (s : State P) : Event P Loc → Prop
  | .acquire p =>
    match s.place p with
    | .wait (.writeLoop addr 0 _) =>
      addr ≠ [] → s.shared.readopen = false → PIPESIZE < s.shared.count + addr.length
    | _ => True
  | _ => True

instance (s : State P) (e : Event P Loc) : Decidable (NoRoom s e) := by
  unfold NoRoom
  split
  · split <;> infer_instance
  · infer_instance

theorem discharges (p : P) (killed : Bool) (l : Loc) (x : Pipe P) (h : At init l x)
    (hgive : ∀ addr i since, l = .writeLoop addr i since → i < addr.length → x.full = true →
      x.readopen = false ∨ killed = true → since < PIPESIZE) :
    Discharges (fun c _ => Wait c) Owes l x (body p killed l x) := by
  obtain ⟨hb, hl⟩ := h
  cases l with
  | ret r | closeRet =>
    rintro c - (hw | ho)
    · exact hw
    · cases c <;> exact ho.elim
  | writeLoop addr i since =>
    simp only [body, pipewriteLoop]
    cases haddr : addr[i]? with
    | none =>
      rintro c - hc (hw | ho)
      · exact .inl hw
      · cases c with
        | nread => exact absurd rfl hc
        | nwrite => exact ho.elim
    | some b =>
      have hi : i < addr.length := (List.getElem?_eq_some_iff.mp haddr).1
      dsimp only
      split_ifs with hfull hfail
      · have hlt := hgive addr i since rfl hi hfull (by simpa using hfail)
        have hcount := (full_iff x).mp hfull
        rintro c - (hw | ho)
        · exact hw
        · cases c with
          | nread => exact absurd ho.2 (by omega)
          | nwrite => exact ho.elim
      · rintro c - hc (hw | ho)
        · exact .inl hw
        · cases c with
          | nread => exact absurd rfl hc
          | nwrite => exact ho.elim
      · obtain ⟨-, hcount⟩ := Bytes.put (p := p) (b := b) hb (by simpa using hfull)
        simp only at hl
        rintro c - (hw | ho)
        · cases c with
          | nread =>
            have hzero : x.count = 0 := hw.1
            exact .inr ⟨Nat.succ_pos _, by omega⟩
          | nwrite => exact absurd ((full_iff x).mpr hw.1) hfull
        · cases c with
          | nread =>
            have hsince : x.count = since := ho.2
            exact .inr ⟨Nat.succ_pos _, by omega⟩
          | nwrite => exact ho.elim
  | writeSleep addr i =>
    refine ⟨hl, fun c _ ho => ?_⟩
    cases c <;> exact ho.elim
  | writeRet addr | readRet got =>
    rintro c - (hw | ho)
    · cases c <;> exact hw
    · cases c <;> exact ho.elim
  | readWait n =>
    simp only [body]
    split_ifs with hwait hkill
    · rintro c - (hw | ho)
      · exact hw
      · cases c <;> exact ho.elim
    · refine ⟨⟨(empty_iff x).mp hwait.1, hwait.2⟩, fun c _ ho => ?_⟩
      cases c <;> exact ho.elim
    · rintro c - (hw | ho)
      · exact .inl hw
      · cases c <;> exact ho.elim
  | readCopy n got =>
    simp only [body]
    split_ifs with hmore
    · rintro c - (hw | ho)
      · cases c with
        | nread =>
          rw [(empty_iff x).mpr hw.1] at hmore
          exact absurd hmore.2 (by simp)
        | nwrite => exact .inr (by simp [Owes])
      · cases c with
        | nread => exact ho.elim
        | nwrite => exact .inr (by simp [Owes])
    · rintro c - hc (hw | ho)
      · exact .inl hw
      · cases c with
        | nread => exact ho.elim
        | nwrite => exact absurd rfl hc
  | close writable =>
    rintro c - (hw | ho)
    · cases writable with
      | true =>
        cases c with
        | nread => exact .inr trivial
        | nwrite => exact .inl hw
      | false =>
        cases c with
        | nread => exact .inl hw
        | nwrite => exact .inr trivial
    · cases c <;> exact ho.elim
  | closeWake writable =>
    rintro c - hc (hw | ho)
    · exact .inl hw
    · cases writable <;> cases c <;> first | exact ho.elim | exact absurd rfl hc

theorem progress_of_entry {l : Loc} (h : entry l = true) : l.progress = [] := by
  have hready := ready_of_entry h
  cases l with
  | writeLoop addr i since =>
    cases i with
    | zero => rfl
    | succ n => cases h
  | readWait n => rfl
  | close writable => rfl
  | ret _ | writeSleep _ _ | writeRet _ | readCopy _ _ | readRet _ | closeWake _ | closeRet =>
    exact hready.elim

structure Sound (init : List Byte) (s : State P) : Prop where
  mutex : Mutex s
  guarded : Guarded (Bytes init []) Loc.Ready Loc.Done (At init) s
  own : ∀ p, Own p (s.place p).loc s.shared

variable {r : Ring 32 Byte} {readopen writeopen : Bool} {s t : State P} {es : List (Event P Loc)}

theorem Sound.start (hr : r.count ≤ PIPESIZE) :
    Sound (r.contents PIPESIZE) (start r readopen writeopen : State P) :=
  ⟨Mutex.initial _ _, Guarded.initial ⟨hr, (List.append_nil _).symm⟩ ⟨0, rfl⟩, fun _ => rfl⟩

theorem Sound.step {e : Event P Loc} (h : Sound init s)
    (hstep : step code s e = some t) : Sound init t := by
  have hs := step_cases hstep
  refine ⟨h.mutex.step hs, h.guarded.step h.mutex (fun _ => ready_of_entry)
    (fun _ _ => at_of_ready) (restores init) hs, private_step h.own h.guarded.done ?_ keeps hs⟩
  rintro p l₀ l x ⟨r, rfl⟩ hentry hown
  unfold Own at hown ⊢
  rw [progress_of_entry hentry]
  exact hown

theorem Sound.bytes (h : Sound init s) : s.shared.count ≤ PIPESIZE ∧
      s.shared.returned.flatten <+: init ++ s.shared.inserted.map Prod.snd := by
  have hpre : ∀ copied, Bytes init copied s.shared → s.shared.count ≤ PIPESIZE ∧
      s.shared.returned.flatten <+: init ++ s.shared.inserted.map Prod.snd := by
    intro copied hb
    rw [← hb.bytes, List.append_assoc]
    exact ⟨hb.bound, List.prefix_append _ _⟩
  cases hlock : s.lock with
  | none => exact hpre [] (h.guarded.free hlock)
  | some p =>
    obtain ⟨l, hl⟩ := (h.mutex.lock p).mp hlock
    exact hpre _ (h.guarded.held p l hl).1

theorem Sound.run (hr : r.count ≤ PIPESIZE)
    (hrun : Runs.exec (Monitor.step code) (Pipes.start r readopen writeopen) es = some s) :
    Sound (r.contents PIPESIZE) s :=
  Runs.exec_invariant (Monitor.step code) (fun _ _ _ h hstep => h.step hstep) (.start hr) hrun

theorem NoLost.run (hr : r.count ≤ PIPESIZE)
    (hfill : Runs.Meets (Monitor.step code) FilledBefore (Pipes.start r readopen writeopen) es)
    (hrun : Runs.exec (Monitor.step code) (Pipes.start r readopen writeopen) es = some s) :
    NoLost (fun c _ => Wait c) Owes s := by
  have hinv : Sound (r.contents PIPESIZE) s ∧ NoLost (fun c _ => Wait c) Owes s := by
    refine Runs.exec_preserves (Monitor.step code)
      (I := fun s => Sound (r.contents PIPESIZE) s ∧ NoLost (fun c _ => Wait c) Owes s) ?_
      ⟨.start hr, NoLost.initial _ _⟩ hfill hrun
    rintro s e t ⟨hs, hn⟩ he hstep
    refine ⟨hs.step hstep, hn.step hs.mutex (fun p l hrun hp => ?_) (step_cases hstep)⟩
    refine discharges p _ l _ (hs.guarded.held p l hp) fun addr i since hl => ?_
    subst hrun hl
    simpa only [FilledBefore, hp] using he
  exact hinv.2

/-- What is read is what was written, in order; a sleeping process has a reason to sleep. -/
theorem pipe_fifo (hr : r.count ≤ PIPESIZE)
    (hfill : Runs.Meets (Monitor.step code) FilledBefore (start r readopen writeopen) es)
    (hrun : Runs.exec (Monitor.step code) (start r readopen writeopen) es = some s) :
    (s.shared.nwrite - s.shared.nread).toNat ≤ PIPESIZE ∧
    s.shared.returned.flatten <+: r.contents PIPESIZE ++ s.shared.inserted.map Prod.snd ∧
    (∀ p, (s.shared.inserted.filter (·.1 = p)).map Prod.snd =
      s.shared.wrote p ++ (s.place p).loc.progress) ∧
    (s.lock = none → ∀ p l,
      (s.place p = .asleep .nread l → s.shared.empty = true ∧ s.shared.writeopen = true) ∧
      (s.place p = .asleep .nwrite l → s.shared.full = true ∧ s.shared.readopen = true)) := by
  have hs := Sound.run hr hrun
  have hn := NoLost.run hr hfill hrun
  refine ⟨hs.bytes.1, hs.bytes.2, hs.own, fun hfree p l => ⟨fun hp => ?_, fun hp => ?_⟩⟩
  · have hw : Wait .nread s.shared := hn.free hs.mutex hfree (.inl hp)
    exact ⟨(empty_iff _).mpr hw.1, hw.2⟩
  · have hw : Wait .nwrite s.shared := hn.free hs.mutex hfree (.inl hp)
    exact ⟨(full_iff _).mpr hw.1, hw.2⟩

def handover : List (Event Bool Loc) :=
  [.call false (.readWait 2), .acquire false, .run false, .fall false,
    .call true (.writeLoop [7, 8] 0 0), .acquire true, .run true, .run true, .run true, .run true,
    .acquire false, .run false, .run false, .run false, .run false, .run false]

theorem pipe_fifo_handover :
    ∃ s : State Bool, Runs.exec (Monitor.step code)
        (start ⟨fun _ => 0, 0xffffffff, 0xffffffff⟩ true true) handover = some s ∧
      s.shared.returned = [[7, 8]] ∧ (s.shared.nwrite - s.shared.nread).toNat ≤ PIPESIZE := by
  obtain ⟨s, hs, hd⟩ : ∃ s ∈ Runs.exec (Monitor.step code)
      (start ⟨fun _ => 0, 0xffffffff, 0xffffffff⟩ true true) handover,
      s.shared.returned = [[7, 8]] := by decide +kernel
  exact ⟨s, hs, hd, (pipe_fifo (by decide) (by decide +kernel) hs).1⟩

theorem exec_fill {p : P} {addr : List Byte} (k : ℕ) {i since : ℕ} {s : State P}
    (hp : s.place p = .inside (.writeLoop addr i since)) (hi : i + k ≤ addr.length)
    (hroom : s.shared.count + k ≤ PIPESIZE) :
    ∃ t, Runs.exec (Monitor.step code) s (List.replicate k (.run p)) = some t ∧
      t.place p = .inside (.writeLoop addr (i + k) (since + k)) ∧
      (∀ q, q ≠ p → t.place q = s.place q) ∧ t.killed = s.killed ∧
      t.shared.count = s.shared.count + k := by
  induction k generalizing i since s with
  | zero => exact ⟨s, rfl, hp, fun _ _ => rfl, rfl, rfl⟩
  | succ k ih =>
    have hget : addr[i]? = some addr[i] := List.getElem?_eq_getElem (by omega)
    have hfull : s.shared.full = false := by
      rw [← Bool.not_eq_true, full_iff]
      omega
    have hcount : (s.shared.put p addr[i]).count = s.shared.count + 1 :=
      Ring.count_push (by
        have : PIPESIZE < 2 ^ 32 := by decide
        omega)
    have hstep : Monitor.step code s (.run p) = some
        { s.set p (.inside (.writeLoop addr (i + 1) (since + 1))) with
          shared := s.shared.put p addr[i] } := by
      simp only [Monitor.step, hp, code, body, pipewriteLoop, hget, hfull, Bool.false_eq_true,
        if_false, act]
    obtain ⟨t, hrun, htp, hto, htk, htc⟩ := ih
      (s := { s.set p (.inside (.writeLoop addr (i + 1) (since + 1))) with
        shared := s.shared.put p addr[i] })
      (update_self _ _ _) (by omega) (by rw [hcount]; omega)
    refine ⟨t, (Runs.exec_cons _).mpr ⟨_, hstep, hrun⟩, ?_, fun q hq => ?_, htk, ?_⟩
    · rw [htp, Nat.add_assoc, Nat.add_assoc, Nat.add_comm 1 k]
    · exact (hto q hq).trans (update_of_ne hq _ _)
    · rw [htc, hcount]
      omega

def beforeFill : List (Event Bool Loc) :=
  [.call false (.readWait 1), .acquire false, .run false, .fall false,
    .kill true, .call true (.writeLoop (List.replicate 513 0) 0 0), .acquire true]

theorem abandoned_loses_wakeup :
    ∃ s, Runs.exec (Monitor.step code) (start ⟨fun _ => 0, 0, 0⟩ true true)
        (beforeFill ++ List.replicate 512 (.run true) ++ [.run true]) = some s ∧
      s.lock = none ∧ s.place false = .asleep .nread (.readWait 1) ∧ s.shared.empty = false := by
  obtain ⟨s, hs, hw, hreader, hkilled, hcount⟩ :
      ∃ s ∈ Runs.exec (Monitor.step code) (start ⟨fun _ => 0, 0, 0⟩ true true) beforeFill,
        s.place true = .inside (.writeLoop (List.replicate 513 0) 0 0) ∧
        s.place false = .asleep .nread (.readWait 1) ∧ s.killed true = true ∧
        s.shared.count = 0 := by decide +kernel
  obtain ⟨t, ht, htw, hto, htk, htc⟩ := exec_fill 512 hw
    (by rw [List.length_replicate]; decide) (by rw [hcount])
  have hfull : t.shared.full = true := (full_iff _).mpr (by rw [htc, hcount])
  have hget : (List.replicate 513 (0 : Byte))[0 + 512]? = some 0 :=
    List.getElem?_replicate_of_lt (by decide)
  have hstep : Monitor.step code t (.run true) = some
      { t.set true (.out (.ret (-1))) with
        lock := none
        shared := t.shared.written true ((List.replicate 513 0).take (0 + 512)) } := by
    simp only [Monitor.step, htw, code, body, pipewriteLoop, hget, hfull, if_true, htk, hkilled,
      or_true, act]
  refine ⟨_, (Runs.exec_append _).mpr ⟨t, (Runs.exec_append _).mpr ⟨s, hs, ht⟩,
    (Runs.exec_cons _).mpr ⟨_, hstep, rfl⟩⟩, rfl, ?_, ?_⟩
  · exact (hto false (by decide)).trans hreader
  · change t.shared.empty = false
    rw [← Bool.not_eq_true, empty_iff, htc, hcount]
    decide

end Xv6.Pipes
