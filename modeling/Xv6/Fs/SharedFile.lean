import Xv6.Lib.Threads
import Xv6.Fs.FileWrite

/-!
# Writes of several processes to one open file

Processes that share a `struct file` run `filewrite` at the same time, each with the bytes of one
chunk at most.
-/

namespace Xv6.Fs

open Lib Lib.Prog Blocks

namespace SharedFile

section Stages

variable (f : FileSlot) (src : List Byte) (ip : ISlot)

def finish (r : ℤ) : FsProg ℤ :=
  if r < 0 then .pure (-1) else if r ≠ src.length then panic .shortFilewrite else .pure src.length

def leave (r : ℤ) : FsProg ℤ := .op (.iunlock ip) fun _ => finish src r

def shift (r : ℤ) (t : Tables) : FsProg ℤ :=
  .op (.setTables (t.setFile f { t.file f with off := ((t.file f).off + r.toNat) % 2 ^ 32 }))
    fun _ => leave src ip r

def move (r : ℤ) : FsProg ℤ :=
  .op .tables fun t => if 0 < r then shift f src ip r t else leave src ip r

def put (off : ℕ) : FsProg ℤ := .op (.writei ip src off) fun r => move f src ip r

def look : FsProg ℤ := .op .tables fun t => put f src ip (t.file f).off

def enter : FsProg ℤ := .op (.ilock ip) fun _ => look f src ip

def begin : FsProg ℤ := .op .tables fun t => enter f src (t.file f).ip

def start : FsProg ℤ :=
  .op .tables fun t =>
    if (t.file f).writable = false then .pure (-1)
    else match (t.file f).type with
      | .none => panic .filewrite
      | .inode => if src = [] then .pure src.length else begin f src

end Stages

theorem filewriteLoop_nil (f : FileSlot) (n : ℕ) : filewriteLoop f n [] = .pure true := by
  cases n with
  | zero => rfl
  | succ n => exact if_pos rfl

theorem filewrite_eq_start {f : FileSlot} {src : List Byte} (h : src.length ≤ maxWrite) :
    filewrite f src = start f src := by
  refine congrArg (Prog.op Op.tables) (funext fun t => ?_)
  change (if (t.file f).writable = false then _ else _) = _
  split_ifs with hw hnil
  · rfl
  · subst hnil
    cases (t.file f).type <;> rfl
  · cases (t.file f).type with
    | none => rfl
    | inode =>
      have hloop : ∃ n, src.length = n + 1 := Nat.exists_eq_succ_of_ne_zero
        (fun h0 => hnil (List.length_eq_zero_iff.mp h0))
      obtain ⟨n, hn⟩ := hloop
      simp only [hn, filewriteLoop, if_neg hnil]
      refine congrArg (Prog.op Op.tables) (funext fun t => ?_)
      refine congrArg (Prog.op (Op.ilock _)) (funext fun _ => ?_)
      refine congrArg (Prog.op Op.tables) (funext fun u => ?_)
      rw [List.take_of_length_le h, List.drop_of_length_le h, filewriteLoop_nil]
      refine congrArg (Prog.op (Op.writei _ _ _)) (funext fun r => ?_)
      refine congrArg (Prog.op Op.tables) (funext fun t' => ?_)
      have hfinish : ((if r < 0 then Pure.pure false else if r ≠ src.length then panic .shortFilewrite
          else .pure true : FsProg Bool) >>= fun done => Pure.pure (if done then (src.length : ℤ) else -1)) =
          finish src r := by
        unfold finish
        split_ifs <;> rfl
      rw [← hn]
      by_cases hr : 0 < r
      · simp only [if_pos hr]
        refine congrArg (Prog.op (Op.setTables _)) (funext fun _ => ?_)
        exact congrArg (Prog.op (Op.iunlock _)) (funext fun _ => hfinish)
      · simp only [if_neg hr]
        exact congrArg (Prog.op (Op.iunlock _)) (funext fun _ => hfinish)

structure Setup where
  g : Geometry
  f : FileSlot
  i : ℕ
  ip : ISlot
  bytes : List Byte
  off : ℕ

variable {x : Setup} {L : List (List Byte)} {src : List Byte} {s t : BState}

def After (x : Setup) (L : List (List Byte)) (s : BState) : Prop :=
  FileAt x.g x.f x.i (overwrite x.bytes x.off L.flatten) (x.off + L.flatten.length) s

structure Written (x : Setup) (L : List (List Byte)) (src : List Byte) (s : BState) : Prop where
  file : FileAt x.g x.f x.i (overwrite x.bytes x.off (L ++ [src]).flatten)
    (x.off + L.flatten.length) s
  fits : x.off + (L ++ [src]).flatten.length ≤ MAXFILE * BSIZE

inductive Critical (x : Setup) (L : List (List Byte)) (src : List Byte) : FsProg ℤ → BState → Prop
  | look {s : BState} (h : After x L s) : Critical x L src (look x.f src x.ip) s
  | put {s : BState} (h : After x L s) :
      Critical x L src (put x.f src x.ip (x.off + L.flatten.length)) s
  | move {s : BState} (h : Written x L src s) : Critical x L src (move x.f src x.ip src.length) s
  | shift {s : BState} (h : Written x L src s) :
      Critical x L src (shift x.f src x.ip src.length s.tables) s
  | leave {s : BState} (h : After x (L ++ [src]) s) :
      Critical x L src (leave src x.ip src.length) s
  | moveFailed {s : BState} (h : After x L s) : Critical x L src (move x.f src x.ip (-1)) s
  | leaveFailed {s : BState} (h : After x L s) : Critical x L src (leave src x.ip (-1)) s

theorem flatten_snoc (L : List (List Byte)) (src : List Byte) :
    (L ++ [src]).flatten = L.flatten ++ src := by
  simp

def LockIs (x : Setup) (s : BState) (b : Bool) : Prop :=
  (s.tables.file x.f).ip = x.ip ∧ (s.cache x.ip).locked = b

theorem After.ilock (h : After x L s) (hlk : LockIs x s false) {r : Unit × BState}
    (hok : Blocks.ilock x.g x.ip s = .ok r) : After x L r.2 ∧ LockIs x r.2 true := by
  have hw : WP (performB x.g) (fun _ => True) (Fs.ilock x.ip)
      (fun _ t => After x L t ∧ LockIs x t true) s := by
    rw [← hlk.1]
    apply FileAt.wp_ilock h (by rw [hlk.1]; exact hlk.2)
    intro t ht htables _ hl
    have hip : (t.tables.file x.f).ip = x.ip := by rw [htables]; exact hlk.1
    exact ⟨ht, hip, by rw [← hip]; exact hl⟩
  simpa only [Fs.ilock, wp_call, performB, hok] using hw

theorem After.iunlock (h : After x L s) (hlk : LockIs x s true) {r : Unit × BState}
    (hok : Kernel.iunlock x.ip s = .ok r) : After x L r.2 ∧ LockIs x r.2 false := by
  have hw : WP (performB x.g) (fun _ => True) (Fs.iunlock x.ip)
      (fun _ t => After x L t ∧ LockIs x t false) s := by
    rw [← hlk.1]
    apply FileAt.wp_iunlock h (by rw [hlk.1]; exact hlk.2)
    intro t ht htables _ hl
    have hip : (t.tables.file x.f).ip = x.ip := by rw [htables]; exact hlk.1
    exact ⟨ht, hip, by rw [← hip]; exact hl⟩
  simpa only [Fs.iunlock, wp_call, performB, hok] using hw

theorem After.writei (hg : x.g.Ok) (h : After x L s) (hlk : LockIs x s true) {r : ℤ × BState}
    (hok : Blocks.writei x.g x.ip src (x.off + L.flatten.length) s = .ok r) : LockIs x r.2 true ∧
      ((r.1 = src.length ∧ Written x L src r.2) ∨ (r.1 = -1 ∧ After x L r.2)) := by
  have hw : WP (performB x.g) (fun _ => True) (Fs.writei x.ip src (x.off + L.flatten.length))
      (fun r t => LockIs x t true ∧ ((r = src.length ∧ Written x L src t) ∨ (r = -1 ∧ After x L t))) s := by
    rw [← hlk.1]
    apply FileAt.wp_writei hg h (by rw [hlk.1]; exact hlk.2) (fun _ hE => absurd trivial hE)
    · exact fun _ => ⟨⟨hlk.1, hlk.2⟩, .inr ⟨rfl, h⟩⟩
    · intro hle hfit t ht htables hl _
      have hip : (t.tables.file x.f).ip = x.ip := by rw [htables]; exact hlk.1
      refine ⟨⟨hip, by rw [← hip]; exact hl⟩, .inl ⟨rfl, ?_, ?_⟩⟩
      · rw [flatten_snoc, ← overwrite_append (le_of_le_length_overwrite hle)]
        exact ht
      · rw [flatten_snoc, List.length_append]
        omega
  simpa only [Fs.writei, wp_call, performB, hok] using hw

theorem Written.shift (h : Written x L src s) (hlk : LockIs x s true) {r : Tables}
    (hr : r = s.tables.setFile x.f { s.tables.file x.f with
      off := ((s.tables.file x.f).off + src.length) % 2 ^ 32 }) :
    After x (L ++ [src]) { s with tables := r } ∧ LockIs x { s with tables := r } true := by
  have hmax : MAXFILE * BSIZE < 2 ^ 32 := by decide
  have hfits := h.fits
  have hlen : (L ++ [src]).flatten.length = L.flatten.length + src.length := by
    rw [flatten_snoc, List.length_append]
  rw [h.file.offset, Nat.mod_eq_of_lt (by omega), Nat.add_assoc, ← hlen] at hr
  subst hr
  exact ⟨h.file.move _, by simp [LockIs, Tables.setFile_file, hlk.1, hlk.2]⟩

def takesLock : FsProg ℤ → Bool
  | .op (.ilock _) _ => true
  | _ => false

variable {q : FsProg ℤ}

theorem Critical.op (hg : x.g.Ok) (hcrit : Critical x L src q s) (hlk : LockIs x s true)
    {β : Type} {o : Op β} {j : β → FsProg ℤ} {b : β} (hq : q = .op o j)
    (ho : performB x.g β o s = .ok (b, t)) : takesLock q = false ∧
      ((Critical x L src (j b) t ∧ LockIs x t true) ∨
        (LockIs x t false ∧ After x (L ++ [src]) t ∧ j b = .pure src.length) ∨
        (LockIs x t false ∧ After x L t ∧ j b = .pure (-1))) := by
  cases hcrit with
  | look h =>
    cases hq
    cases ho
    dsimp only
    rw [FileAt.offset h]
    exact ⟨rfl, .inl ⟨.put h, hlk⟩⟩
  | put h =>
    cases hq
    obtain ⟨hlk', ⟨rfl, hw⟩ | ⟨rfl, h'⟩⟩ := h.writei hg hlk ho
    · exact ⟨rfl, .inl ⟨.move hw, hlk'⟩⟩
    · exact ⟨rfl, .inl ⟨.moveFailed h', hlk'⟩⟩
  | move h =>
    cases hq
    cases ho
    dsimp only
    split_ifs with hpos
    · exact ⟨rfl, .inl ⟨.shift h, hlk⟩⟩
    · obtain rfl : src = [] := List.length_eq_zero_iff.mp (by omega)
      exact ⟨rfl, .inl ⟨.leave (by simpa [After] using h.file), hlk⟩⟩
  | shift h =>
    cases hq
    cases ho
    obtain ⟨h', hlk'⟩ := h.shift hlk rfl
    exact ⟨rfl, .inl ⟨.leave h', hlk'⟩⟩
  | leave h =>
    cases hq
    obtain ⟨h', hlk'⟩ := h.iunlock hlk ho
    refine ⟨rfl, .inr (.inl ⟨hlk', h', ?_⟩)⟩
    simp [finish]
  | moveFailed h =>
    cases hq
    cases ho
    dsimp only
    rw [if_neg (by omega)]
    exact ⟨rfl, .inl ⟨.leaveFailed h, hlk⟩⟩
  | leaveFailed h =>
    cases hq
    obtain ⟨h', hlk'⟩ := h.iunlock hlk ho
    exact ⟨rfl, .inr (.inr ⟨hlk', h', rfl⟩)⟩

inductive Outside (x : Setup) (src : List Byte) : FsProg ℤ → List (List Byte) → Prop
  | start : Outside x src (start x.f src) (if src = [] then [] else [src])
  | begin : Outside x src (begin x.f src) [src]
  | enter : Outside x src (enter x.f src x.ip) [src]
  | done : Outside x src (.pure src.length) []
  | failed : Outside x src (.pure (-1)) []

theorem Outside.op {c : List Byte} {off : ℕ} {w : List (List Byte)} (hout : Outside x src q w)
    (hfile : FileAt x.g x.f x.i c off s) (hip : (s.tables.file x.f).ip = x.ip)
    {β : Type} {o : Op β} {j : β → FsProg ℤ} {b : β} (hq : q = .op o j)
    (ho : performB x.g β o s = .ok (b, t)) : (takesLock q = false ∧ t = s ∧ Outside x src (j b) w) ∨
      (takesLock q = true ∧ w = [src] ∧ Blocks.ilock x.g x.ip s = .ok ((), t) ∧
        j b = look x.f src x.ip) := by
  cases hout with
  | start =>
    cases hq
    cases ho
    refine .inl ⟨rfl, rfl, ?_⟩
    have hw : ¬ (s.tables.file x.f).writable = false := by
      rw [hfile.writable]
      exact fun hfalse => nomatch hfalse
    simp only [if_neg hw, hfile.type]
    split_ifs
    · exact .done
    · exact .begin
  | begin =>
    cases hq
    cases ho
    dsimp only
    rw [hip]
    exact .inl ⟨rfl, rfl, .enter⟩
  | enter =>
    cases hq
    exact .inr ⟨rfl, rfl, ho, rfl⟩
  | done => cases hq
  | failed => cases hq

theorem Outside.pure {w : List (List Byte)} {r : ℤ} (hout : Outside x src q w)
    (hq : q = .pure r) : w = [] := by
  cases hout with
  | start => cases hq
  | begin => cases hq
  | enter => cases hq
  | done => rfl
  | failed => rfl

variable {P : Type} [DecidableEq P]

abbrev Writers (P : Type) := Threads.State P (List Byte) Op Fault BState ℤ

abbrev writerStep (g : Geometry) (f : FileSlot) :
    Writers P → Threads.Event P (List Byte) → Option (Writers P) :=
  Threads.step (performB g) (filewrite f)

structure History (P : Type) where
  called : List (P × List Byte)
  locked : List (P × List Byte)

def record (H : History P) (s : Writers P) (e : Threads.Event P (List Byte)) (_ : Writers P) :
    History P :=
  match e with
  | .call p src => if src = [] then H else { H with called := H.called ++ [(p, src)] }
  | .run p =>
    match s.thread p with
    | none => H
    | some th => if takesLock th.rest then { H with locked := H.locked ++ [(p, th.call)] } else H

def Succeeds (s : Writers P) : Threads.Event P (List Byte) → Prop
  | .call _ src => src.length ≤ maxWrite
  | .run p => ∀ th ∈ s.thread p, ∀ r ∈ th.result, r = th.call.length

instance (s : Writers P) : ∀ e, Decidable (Succeeds s e)
  | .call _ src => inferInstanceAs (Decidable (src.length ≤ maxWrite))
  | .run p => inferInstanceAs (Decidable (∀ th ∈ s.thread p, ∀ r ∈ th.result, r = th.call.length))

def callsOf (calls : List (P × List Byte)) (p : P) : List (List Byte) :=
  (calls.filter fun y => y.1 = p).map Prod.snd

theorem callsOf_snoc_self (calls : List (P × List Byte)) (p : P) (src : List Byte) :
    callsOf (calls ++ [(p, src)]) p = callsOf calls p ++ [src] := by
  simp [callsOf]

theorem callsOf_snoc_ne (calls : List (P × List Byte)) {p q : P} (src : List Byte) (h : q ≠ p) :
    callsOf (calls ++ [(p, src)]) q = callsOf calls q := by
  simp [callsOf, h.symm]

def Doomed (s : Writers P) : Prop := ∃ p src, s.thread p = some ⟨src, .pure (-1)⟩

def Apart (x : Setup) (H : History P) (s : Writers P) (p : P) : Prop :=
  match s.thread p with
  | none => callsOf H.called p = callsOf H.locked p
  | some th => ∃ w, Outside x th.call th.rest w ∧ callsOf H.called p = callsOf H.locked p ++ w

inductive Inv (x : Setup) (H : History P) (s : Writers P) : Prop
  | free (L : List (List Byte)) (hfile : After x L s.shared) (hlk : LockIs x s.shared false)
      (hL : H.locked.map Prod.snd = L ∨ Doomed s) (hout : ∀ p, Apart x H s p)
  | held (L : List (List Byte)) (p : P) (th : Threads.Thread (List Byte) Op Fault ℤ)
      (hp : s.thread p = some th) (hcrit : Critical x L th.call th.rest s.shared)
      (hlk : LockIs x s.shared true) (hL : H.locked.map Prod.snd = L ++ [th.call] ∨ Doomed s)
      (hself : callsOf H.called p = callsOf H.locked p) (hout : ∀ q ≠ p, Apart x H s q)

variable {H H' : History P} {u v : Writers P} {p : P}

theorem Critical.file {q : FsProg ℤ} (h : Critical x L src q s) :
    ∃ c off, FileAt x.g x.f x.i c off s ∧ (x.off ≤ x.bytes.length → off ≤ c.length) := by
  have hafter : ∀ {L : List (List Byte)}, After x L s → ∃ c off, FileAt x.g x.f x.i c off s ∧
      (x.off ≤ x.bytes.length → off ≤ c.length) := by
    intro L h
    refine ⟨_, _, h, fun hoff => ?_⟩
    rw [length_overwrite hoff]
    exact le_max_right _ _
  have hwritten : Written x L src s → ∃ c off, FileAt x.g x.f x.i c off s ∧
      (x.off ≤ x.bytes.length → off ≤ c.length) := by
    intro h
    refine ⟨_, _, h.file, fun hoff => ?_⟩
    rw [length_overwrite hoff, flatten_snoc, List.length_append]
    omega
  cases h with
  | look h | put h | leave h | moveFailed h | leaveFailed h => exact hafter h
  | move h => exact hwritten h
  | shift h => exact hwritten h

structure Elsewhere (p : P) (H : History P) (u : Writers P) (H' : History P) (v : Writers P) : Prop where
  shared : v.shared = u.shared
  locked : H'.locked = H.locked
  thread : ∀ q ≠ p, v.thread q = u.thread q
  called : ∀ q ≠ p, callsOf H'.called q = callsOf H.called q
  doomed : Doomed u → Doomed v

theorem Apart.congr {q : P} (h : Apart x H u q) (hth : v.thread q = u.thread q)
    (hcalled : callsOf H'.called q = callsOf H.called q)
    (hlocked : callsOf H'.locked q = callsOf H.locked q) : Apart x H' v q := by
  rw [Apart, hth, hcalled, hlocked]
  exact h

theorem Elsewhere.apart (h : Elsewhere p H u H' v) {q : P} (hq : q ≠ p) (ha : Apart x H u q) :
    Apart x H' v q :=
  ha.congr (h.thread q hq) (h.called q hq) (by rw [h.locked])

theorem Inv.focus (h : Inv x H u) (p : P) :
    (∃ L th, u.thread p = some th ∧ Critical x L th.call th.rest u.shared ∧ LockIs x u.shared true ∧
      (H.locked.map Prod.snd = L ++ [th.call] ∨ Doomed u) ∧
      callsOf H.called p = callsOf H.locked p ∧ ∀ q ≠ p, Apart x H u q) ∨
    (Apart x H u p ∧ ∀ H' v, Elsewhere p H u H' v → Apart x H' v p → Inv x H' v) := by
  cases h with
  | free L hfile hlk hL hout =>
    refine .inr ⟨hout p, fun H' v he hp => .free L ?_ ?_ ?_ fun q => ?_⟩
    · rw [he.shared]; exact hfile
    · rw [he.shared]; exact hlk
    · rw [he.locked]; exact hL.imp_right he.doomed
    · by_cases hq : q = p
      · rw [hq]; exact hp
      · exact he.apart hq (hout q)
  | held L p' th hp' hcrit hlk hL hself hout =>
    by_cases hpp : p = p'
    · subst hpp
      exact .inl ⟨L, th, hp', hcrit, hlk, hL, hself, hout⟩
    · refine .inr ⟨hout p hpp, fun H' v he hp => .held L p' th ?_ ?_ ?_ ?_ ?_ fun q hq => ?_⟩
      · rw [he.thread p' (Ne.symm hpp)]; exact hp'
      · rw [he.shared]; exact hcrit
      · rw [he.shared]; exact hlk
      · rw [he.locked]; exact hL.imp_right he.doomed
      · rw [he.locked, he.called p' (Ne.symm hpp)]; exact hself
      · by_cases hqp : q = p
        · rw [hqp]; exact hp
        · exact he.apart hqp (hout q hq)

theorem Doomed.set {th : Option (Threads.Thread (List Byte) Op Fault ℤ)} (hd : Doomed u)
    (hp : ∀ src, u.thread p ≠ some ⟨src, .pure (-1)⟩) (t : BState) : Doomed (u.set t p th) := by
  obtain ⟨q, src, hq⟩ := hd
  have hne : q ≠ p := fun heq => hp src (heq ▸ hq)
  exact ⟨q, src, by rw [Threads.set_of_ne u t th hne]; exact hq⟩

theorem Inv.call (h : Inv x H u) {src : List Byte} (hp : u.thread p = none)
    (hsmall : src.length ≤ maxWrite) :
    Inv x (record H u (.call p src) (u.set u.shared p (some ⟨src, filewrite x.f src⟩)))
      (u.set u.shared p (some ⟨src, filewrite x.f src⟩)) := by
  have hrecord : ∀ v, record H u (.call p src) v =
      if src = [] then H else { H with called := H.called ++ [(p, src)] } := fun _ => rfl
  rw [hrecord]
  rcases h.focus p with ⟨L, th, hth, -⟩ | ⟨hap, hframe⟩
  · rw [hp] at hth
    cases hth
  · apply hframe
    · constructor
      case shared => rfl
      case locked => split_ifs <;> rfl
      case thread => exact fun q hq => Threads.set_of_ne _ _ _ hq
      case called =>
        intro q hq
        split_ifs
        · rfl
        · exact callsOf_snoc_ne _ _ hq
      case doomed => exact fun hd => hd.set (fun _ => by rw [hp]; exact nofun) _
    · rw [Apart, hp] at hap
      rw [Apart, Threads.set_self, filewrite_eq_start hsmall]
      refine ⟨_, .start, ?_⟩
      split_ifs with h0
      · rw [hap, List.append_nil]
      · rw [callsOf_snoc_self, hap]

omit [DecidableEq P] in
theorem record_run (H : History P) (v : Writers P) {th : Threads.Thread (List Byte) Op Fault ℤ}
    (hp : u.thread p = some th) : record H u (.run p) v =
      if takesLock th.rest then { H with locked := H.locked ++ [(p, th.call)] } else H := by
  simp only [record, hp]

theorem Inv.done (h : Inv x H u) {src : List Byte} {r : ℤ} (hp : u.thread p = some ⟨src, .pure r⟩)
    (hr : r = src.length) : Inv x H (u.set u.shared p none) := by
  rcases h.focus p with ⟨L, th, hth, hcrit, -⟩ | ⟨hap, hframe⟩
  · rw [hp] at hth
    cases hth
    cases hcrit
  · apply hframe
    · refine ⟨rfl, rfl, fun q hq => Threads.set_of_ne _ _ _ hq, fun _ _ => rfl, fun hd => hd.set ?_ _⟩
      intro src' heq
      rw [hp] at heq
      cases heq
      omega
    · rw [Apart, hp] at hap
      rw [Apart, Threads.set_self]
      obtain ⟨w, hw, hcalls⟩ := hap
      rw [hcalls, hw.pure rfl, List.append_nil]

theorem Inv.critical (hg : x.g.Ok) {th : Threads.Thread (List Byte) Op Fault ℤ}
    (hcrit : Critical x L th.call th.rest u.shared) (hlk : LockIs x u.shared true)
    (hL : H.locked.map Prod.snd = L ++ [th.call] ∨ Doomed u)
    (hself : callsOf H.called p = callsOf H.locked p) (hout : ∀ q ≠ p, Apart x H u q)
    {β : Type} {o : Op β} {j : β → FsProg ℤ} {b : β} (hp : u.thread p = some th)
    (hq : th.rest = .op o j) (ho : performB x.g β o u.shared = .ok (b, t)) :
    Inv x H (u.set t p (some ⟨th.call, j b⟩)) := by
  have hdoomed : ∀ {th'}, Doomed u → Doomed (u.set t p th') := fun hd => hd.set (fun src heq => by
    rw [hp] at heq
    cases heq
    cases hq) _
  have hout' : ∀ q ≠ p, Apart x H (u.set t p (some ⟨th.call, j b⟩)) q :=
    fun q hne => (hout q hne).congr (Threads.set_of_ne _ _ _ hne) rfl rfl
  have hback : j b = .pure (th.call.length : ℤ) ∨ j b = .pure (-1) →
      ∀ q, Apart x H (u.set t p (some ⟨th.call, j b⟩)) q := by
    intro hj q
    by_cases hne : q = p
    · subst hne
      rw [Apart, Threads.set_self]
      refine ⟨[], ?_, by rw [hself, List.append_nil]⟩
      dsimp only
      rcases hj with hj | hj
      · rw [hj]; exact .done
      · rw [hj]; exact .failed
    · exact hout' q hne
  obtain ⟨-, ⟨hcrit', hlk'⟩ | ⟨hlk', hafter, hj⟩ | ⟨hlk', hafter, hj⟩⟩ := hcrit.op hg hlk hq ho
  · exact .held L p _ (Threads.set_self _ _ _ _) hcrit' hlk' (hL.imp_right hdoomed) hself hout'
  · exact .free _ hafter hlk' (hL.imp_right hdoomed) (hback (.inl hj))
  · exact .free _ hafter hlk' (.inr ⟨p, th.call, by rw [Threads.set_self, hj]⟩) (hback (.inr hj))

theorem ilock_unlocked {g : Geometry} {ip : ISlot} {r : Unit × BState}
    (h : Blocks.ilock g ip s = .ok r) : (s.cache ip).locked = false := by
  simp only [Blocks.ilock] at h
  split_ifs at h with h1 h2
  all_goals exact Bool.eq_false_iff.mpr h2

theorem Inv.lock (h : Inv x H u) {src : List Byte} {q : FsProg ℤ} (hp : u.thread p = some ⟨src, q⟩)
    (hcalls : callsOf H.called p = callsOf H.locked p ++ [src])
    (hok : Blocks.ilock x.g x.ip u.shared = .ok ((), t)) (hq : ∀ r, q ≠ .pure r) :
    Inv x { H with locked := H.locked ++ [(p, src)] } (u.set t p (some ⟨src, look x.f src x.ip⟩)) := by
  cases h with
  | held L p' th hp' hcrit hlk =>
    have hfree := ilock_unlocked hok
    rw [hlk.2] at hfree
    cases hfree
  | free L hfile hlk hL hout =>
    obtain ⟨hfile', hlk'⟩ := hfile.ilock hlk hok
    refine .held L p _ (Threads.set_self _ _ _ _) (.look hfile') hlk' ?_ ?_ fun p' hne => ?_
    · refine hL.imp (fun hL => ?_) fun hd => hd.set (fun src' heq => ?_) _
      · rw [List.map_append, hL]
        rfl
      · rw [hp] at heq
        cases heq
        exact hq _ rfl
    · rw [callsOf_snoc_self, hcalls]
    · exact (hout p').congr (Threads.set_of_ne _ _ _ hne) rfl (callsOf_snoc_ne _ _ hne)

theorem Inv.file (h : Inv x H u) : (u.shared.tables.file x.f).ip = x.ip ∧
    ∃ c off, FileAt x.g x.f x.i c off u.shared ∧ (x.off ≤ x.bytes.length → off ≤ c.length) := by
  cases h with
  | free L hfile hlk =>
    refine ⟨hlk.1, _, _, hfile, fun hoff => ?_⟩
    rw [length_overwrite hoff]
    exact le_max_right _ _
  | held L p th hp hcrit hlk => exact ⟨hlk.1, hcrit.file⟩

theorem Inv.op (hg : x.g.Ok) (h : Inv x H u) {src : List Byte} {β : Type} {o : Op β}
    {j : β → FsProg ℤ} {b : β} (hp : u.thread p = some ⟨src, .op o j⟩)
    (ho : performB x.g β o u.shared = .ok (b, t)) :
    Inv x (record H u (.run p) (u.set t p (some ⟨src, j b⟩))) (u.set t p (some ⟨src, j b⟩)) := by
  rw [record_run H _ hp]
  rcases h.focus p with ⟨L, th, hth, hcrit, hlk, hL, hself, hout⟩ | ⟨hap, hframe⟩
  · rw [hp] at hth
    cases hth
    rw [(hcrit.op hg hlk rfl ho).1]
    exact .critical hg hcrit hlk hL hself hout hp rfl ho
  · rw [Apart, hp] at hap
    obtain ⟨w, hw, hcalls⟩ := hap
    obtain ⟨hip, c, off, hfile, -⟩ := h.file
    rcases hw.op hfile hip rfl ho with ⟨htake, rfl, hw'⟩ | ⟨htake, rfl, hok, hj⟩
    · rw [htake]
      apply hframe
      · refine ⟨rfl, rfl, fun q hq => Threads.set_of_ne _ _ _ hq, fun _ _ => rfl, fun hd => hd.set ?_ _⟩
        intro src' heq
        rw [hp] at heq
        cases heq
      · rw [Apart, Threads.set_self]
        exact ⟨w, hw', hcalls⟩
    · rw [htake, hj]
      exact h.lock hp hcalls hok (fun r => nofun)

theorem Inv.step (hg : x.g.Ok) (h : Inv x H u) {e : Threads.Event P (List Byte)} (hs : Succeeds u e)
    (hstep : writerStep x.g x.f u e = some v) : Inv x (record H u e v) v := by
  cases Threads.steps_of_step hstep with
  | call hp => exact h.call hp hs
  | done hp =>
    rw [record_run H _ hp]
    exact h.done hp (hs _ hp _ rfl)
  | op hp ho => exact h.op hg hp ho

def history (g : Geometry) (f : FileSlot) (s : BState) (evs : List (Threads.Event P (List Byte))) :
    History P :=
  Runs.track (writerStep g f) record ⟨[], []⟩ ⟨s, fun _ => none⟩ evs

theorem Inv.run {g : Geometry} {f : FileSlot} {i off : ℕ} {c : List Byte} (hg : g.Ok)
    (h : FileAt g f i c off s) (hfree : (s.cache (s.tables.file f).ip).locked = false)
    {evs : List (Threads.Event P (List Byte))}
    (hD : Runs.Meets (writerStep g f) Succeeds ⟨s, fun _ => none⟩ evs)
    (hrun : Runs.exec (writerStep g f) ⟨s, fun _ => none⟩ evs = some u) :
    Inv ⟨g, f, i, (s.tables.file f).ip, c, off⟩ (history g f s evs) u := by
  refine Runs.exec_track_meets (writerStep g f) (D := Succeeds)
    (I := fun u H => Inv ⟨g, f, i, (s.tables.file f).ip, c, off⟩ H u)
    (fun u e v H hI hD hstep => hI.step hg hD hstep) ?_ hD hrun
  refine .free [] ?_ ⟨rfl, hfree⟩ (.inl rfl) fun p => rfl
  simp only [After, List.flatten_nil, overwrite_nil, List.length_nil, Nat.add_zero]
  exact h

/-- The file holds the chunks in the order in which the inode lock was taken. -/
theorem shared_writes_lose_nothing {g : Geometry} {f : FileSlot} {i off : ℕ} {c : List Byte} (hg : g.Ok)
    (h : FileAt g f i c off s) (hfree : (s.cache (s.tables.file f).ip).locked = false)
    {evs : List (Threads.Event P (List Byte))}
    (hD : Runs.Meets (writerStep g f) Succeeds ⟨s, fun _ => none⟩ evs)
    (hrun : Runs.exec (writerStep g f) ⟨s, fun _ => none⟩ evs = some u) :
    ((∀ p, u.thread p = none) →
      FileAt g f i (overwrite c off ((history g f s evs).locked.map Prod.snd).flatten)
        (off + ((history g f s evs).locked.map Prod.snd).flatten.length) u.shared ∧
      ∀ p, callsOf (history g f s evs).called p = callsOf (history g f s evs).locked p) ∧
    (off ≤ c.length →
      (u.shared.tables.file f).off ≤ (readDinode g u.shared.vol.disk i).size ∧
      ((u.shared.cache (u.shared.tables.file f).ip).valid = true →
        (u.shared.tables.file f).off ≤ (u.shared.cache (u.shared.tables.file f).ip).din.size)) := by
  have hI := Inv.run hg h hfree hD hrun
  refine ⟨fun hquiet => ?_, fun hoff => ?_⟩
  · cases hI with
    | held L p th hp => rw [hquiet p] at hp; cases hp
    | free L hfile hlk hL hout =>
      obtain rfl := hL.resolve_right (fun ⟨p, src, hp⟩ => by rw [hquiet p] at hp; cases hp)
      refine ⟨hfile, fun p => ?_⟩
      have hap := hout p
      rw [Apart, hquiet p] at hap
      exact hap
  · obtain ⟨-, c', off', hfile, hle⟩ := hI.file
    have hsize : (u.shared.tables.file f).off ≤ (readDinode g u.shared.vol.disk i).size := by
      rw [hfile.offset, ← hfile.length_eq]
      exact hle hoff
    refine ⟨hsize, fun hval => ?_⟩
    rw [(hfile.settled.sync _ hfile.ref hval).1, hfile.inum]
    exact hsize

/-- The second call is made before the first has the lock, and gets it after. -/
def twoWriters : List (Threads.Event Bool (List Byte)) :=
  [.call false [120], .call true [121], .run false, .run false, .run false, .run true, .run true] ++
    List.replicate 6 (.run false) ++ List.replicate 7 (.run true)

theorem shared_writes_lose_nothing_twoWriters :
    ∃ s u, Runs.exec (stepB xv6Geometry) (bootB mkfsDisk) createdRun = some s ∧
      Runs.exec (writerStep xv6Geometry 0) ⟨s, fun _ => none⟩ twoWriters = some u ∧
      FileAt xv6Geometry 0 2 [120, 121] 2 u.shared := by
  have heval : (Runs.exec (stepB xv6Geometry) (bootB mkfsDisk) createdRun).any (fun s =>
      decide (Runs.Meets (writerStep xv6Geometry 0) Succeeds ⟨s, fun _ => none⟩ twoWriters ∧
        (history xv6Geometry 0 s twoWriters).locked = [(false, [120]), (true, [121])] ∧
        (Runs.exec (writerStep xv6Geometry 0) ⟨s, fun _ => none⟩ twoWriters).any (fun u =>
          decide (∀ p : Bool, (u.thread p).isNone = true)) = true)) = true := by
    decide +kernel
  obtain ⟨s, hs, h, hfree, -⟩ := createdRun_file
  rw [hs] at heval
  obtain ⟨hD, hlocked, hend⟩ := of_decide_eq_true heval
  obtain ⟨u, hu, hquiet⟩ := (Option.any_eq_true _ _).mp hend
  refine ⟨s, u, hs, hu, ?_⟩
  have hall := (shared_writes_lose_nothing xv6Geometry_ok h hfree hD hu).1
    (fun p => Option.isNone_iff_eq_none.mp (of_decide_eq_true hquiet p))
  rw [hlocked] at hall
  exact hall.1

end SharedFile

end Xv6.Fs
