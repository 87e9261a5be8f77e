import Xv6.Files.Pipes
import Xv6.Lib.Counting

/-!
# The reference counts of the open-file table

While a call runs, the count of a file is the number of descriptors that point to it plus the
references that the call holds in its variables, and a file that was just allocated has no type
yet.
-/

namespace Xv6.Files

open Lib Vm
open Function (update_self update_of_ne update_apply update_eq_self)

variable {K : Image} {s t : State} {f g : FileSlot} {p np : Slot} {fd : Fd}

namespace State

@[simp] theorem setFile_file_self (x : File) : (s.setFile f x).file f = x :=
  update_self _ _ _

theorem setFile_file_of_ne (x : File) (h : g ≠ f) : (s.setFile f x).file g = s.file g :=
  update_of_ne h _ _

theorem setFile_file (x : File) : (s.setFile f x).file g = if g = f then x else s.file g :=
  update_apply _ _ _ _

theorem setFd_ofile (x : Option FileSlot) (q : Slot) (e : Fd) :
    (s.setFd p fd x).ofile q e = if q = p ∧ e = fd then x else s.ofile q e := by
  simp only [setFd, update_apply]
  by_cases hq : q = p
  · subst hq
    by_cases he : e = fd
    · simp only [he, update_self, and_self, if_true]
    · simp only [he, update_of_ne he, and_false, if_false, if_true]
  · simp only [hq, false_and, if_false]

theorem setState_state (x : ProcState) (q : Slot) :
    (s.setState p x).state q = if q = p then x else s.state q :=
  update_apply _ _ _ _

def slots (s : State) (f : FileSlot) : ℕ :=
  (Finset.univ.filter fun x : Slot × Fd => s.ofile x.1 x.2 = some f).card

theorem slots_setFd (p : Slot) (fd : Fd) (f : FileSlot) (x : Option FileSlot) :
    (s.setFd p fd x).slots f + (if s.ofile p fd = some f then 1 else 0) =
      s.slots f + (if x = some f then 1 else 0) := by
  have h := card_filter_change (a := (p, fd)) (fun y : Slot × Fd => s.ofile y.1 y.2 = some f)
    (fun y => (s.setFd p fd x).ofile y.1 y.2 = some f) (Finset.mem_univ (p, fd)) (by
      intro y _ hne
      rw [setFd_ofile, if_neg]
      rintro ⟨h1, h2⟩
      exact hne (Prod.ext h1 h2))
  simpa only [slots, setFd_ofile, and_self, if_true] using h

theorem slots_pos (h : s.ofile p fd = some f) : 0 < s.slots f :=
  Finset.card_pos.mpr ⟨(p, fd), by simpa using h⟩

end State

def Life.step (cur : FileSlot → Option Object) : Life → Option (FileSlot → Option Object)
  | .opened f x => if cur f = none then some (Function.update cur f (some x)) else none
  | .closed f x => if cur f = some x then some (Function.update cur f none) else none

abbrev replay (l : List Life) : Option (FileSlot → Option Object) :=
  Runs.exec Life.step (fun _ => none) l

theorem replay_append {l : List Life} {e : Life} {cur next : FileSlot → Option Object}
    (h : replay l = some cur) (he : Life.step cur e = some next) : replay (l ++ [e]) = some next := by
  rw [replay, Runs.exec_append]
  exact ⟨cur, h, (Runs.exec_cons _).mpr ⟨next, he, rfl⟩⟩

structure Counted (held : Multiset FileSlot) (fresh : FileSlot → Prop) (s : State) : Prop where
  count : ∀ f, (s.file f).ref = s.slots f + held.count f
  dead : ∀ p fd, s.state p = .UNUSED ∨ s.state p = .ZOMBIE → s.ofile p fd = none
  closed : ∀ f, (s.file f).ref = 0 → (s.file f).type = .FD_NONE
  opened : ∀ f, (s.file f).type = .FD_NONE → (s.file f).ref = 0 ∨ fresh f
  life : replay s.life = some fun f => (s.file f).object

structure Accounts (K : Image) (held : Multiset FileSlot) (fresh : FileSlot → Prop) (s : State) :
    Prop extends Counted held fresh s, Pipes K s

abbrev Settled (K : Image) (s : State) : Prop := Accounts K 0 (fun _ => False) s

theorem samePipes_setFile (x : File)
    (hx : ∀ q w, x.object = some (.pipe q w) ↔ (s.file f).object = some (.pipe q w)) :
    SamePipes s (s.setFile f x) := by
  refine ⟨fun g q w => ?_, rfl, rfl⟩
  rw [State.setFile_file]
  split_ifs with hg
  · rw [hg]
    exact hx q w
  · rfl

theorem samePipes_setFd (x : Option FileSlot) : SamePipes s (s.setFd p fd x) :=
  ⟨fun _ _ _ => Iff.rfl, rfl, rfl⟩

theorem samePipes_setRef (n : ℕ) : SamePipes s (s.setFile f { s.file f with ref := n }) :=
  samePipes_setFile { s.file f with ref := n } fun _ _ => Iff.rfl

namespace Counted

variable {held : Multiset FileSlot} {fresh : FileSlot → Prop}

theorem settle (h : Counted held (fun g => g = f ∨ fresh g) s) (hf : (s.file f).ref = 0) :
    Counted held fresh s := by
  refine { h with opened := fun g hg => ?_ }
  rcases h.opened g hg with h0 | rfl | hfr
  · exact .inl h0
  · exact .inl hf
  · exact .inr hfr

theorem setFd_take (h : Counted held fresh s) (hfd : s.ofile p fd = some f) :
    Counted (f ::ₘ held) fresh (s.setFd p fd none) := by
  refine { h with count := fun g => ?_, dead := fun q e hq => ?_ }
  · have hs := s.slots_setFd p fd g none
    have hc := h.count g
    simp only [hfd, reduceCtorEq, if_false, Option.some.injEq] at hs
    simp only [Multiset.count_cons]
    change (s.file g).ref = _
    by_cases hg : g = f
    · simp only [hg, if_true] at hs hc ⊢
      omega
    · simp only [hg, Ne.symm hg, if_false] at hs hc ⊢
      omega
  · rw [State.setFd_ofile]
    split_ifs with heq
    · rfl
    · exact h.dead q e hq

theorem setFd_give (h : Counted (f ::ₘ held) fresh s) (hp : s.state p ≠ .UNUSED)
    (hz : s.state p ≠ .ZOMBIE) (hfd : s.ofile p fd = none) :
    Counted held fresh (s.setFd p fd (some f)) := by
  refine { h with count := fun g => ?_, dead := fun q e hq => ?_ }
  · have hs := s.slots_setFd p fd g (some f)
    have hc := h.count g
    simp only [hfd, reduceCtorEq, if_false, Option.some.injEq] at hs
    simp only [Multiset.count_cons] at hc
    change (s.file g).ref = _
    by_cases hg : g = f
    · simp only [hg, if_true] at hs hc ⊢
      omega
    · simp only [hg, Ne.symm hg, if_false] at hs hc ⊢
      omega
  · rw [State.setFd_ofile]
    split_ifs with heq
    · rw [heq.1] at hq
      exact absurd hq (not_or.mpr ⟨hp, hz⟩)
    · exact h.dead q e hq

theorem update {x : File} {u : State} {held' : Multiset FileSlot} {fresh' : FileSlot → Prop}
    (h : Counted held fresh s) (hfile : u.file = (s.setFile f x).file) (hofile : u.ofile = s.ofile)
    (hstate : u.state = s.state) (hcount : x.ref = s.slots f + held'.count f)
    (hheld : ∀ g ≠ f, held'.count g = held.count g) (hclosed : x.ref = 0 → x.type = .FD_NONE)
    (hopened : x.type = .FD_NONE → x.ref = 0 ∨ fresh' f) (hfresh : ∀ g ≠ f, fresh g → fresh' g)
    (hlife : replay u.life = some (Function.update (fun g => (s.file g).object) f x.object)) :
    Counted held' fresh' u := by
  have hslots : ∀ g, u.slots g = s.slots g := fun g => by simp only [State.slots, hofile]
  have hself : u.file f = x := by rw [hfile, State.setFile_file_self]
  have hother : ∀ {g}, g ≠ f → u.file g = s.file g := by
    intro g hg
    rw [hfile, State.setFile_file_of_ne _ hg]
  refine ⟨fun g => ?_, fun p fd hp => ?_, fun g hg => ?_, fun g hg => ?_, hlife.trans ?_⟩
  · rw [hslots]
    by_cases heq : g = f
    · rw [heq, hself]
      exact hcount
    · rw [hother heq, hheld g heq]
      exact h.count g
  · rw [hofile]
    exact h.dead p fd (hstate ▸ hp)
  · by_cases heq : g = f
    · rw [heq, hself] at hg ⊢
      exact hclosed hg
    · rw [hother heq] at hg ⊢
      exact h.closed g hg
  · by_cases heq : g = f
    · rw [heq, hself] at hg ⊢
      exact hopened hg
    · rw [hother heq] at hg ⊢
      exact (h.opened g hg).imp_right (hfresh g heq)
  · congr 1
    funext g
    by_cases heq : g = f
    · rw [heq, update_self, hself]
    · rw [update_of_ne heq, hother heq]

theorem setRef {n : ℕ} {held' : Multiset FileSlot} (h : Counted held fresh s)
    (hf : n = s.slots f + held'.count f) (hne : ∀ g ≠ f, held'.count g = held.count g)
    (hn : 0 < n) (htype : (s.file f).type = .FD_NONE → fresh f) :
    Counted held' fresh (s.setFile f { s.file f with ref := n }) := by
  refine h.update rfl rfl rfl hf hne (fun h0 => absurd h0 hn.ne') (fun ht => .inr (htype ht))
    (fun _ _ => id) (h.life.trans (congrArg some ?_))
  exact (update_eq_self f fun g => (s.file g).object).symm

theorem release {l : List Life} {u : State} (h : Counted (f ::ₘ held) fresh s)
    (hf : (s.file f).ref = 1)
    (hl : replay l = some (Function.update (fun g => (s.file g).object) f none))
    (hfile : u.file = (s.setFile f { s.file f with ref := 0, type := .FD_NONE }).file)
    (hofile : u.ofile = s.ofile) (hstate : u.state = s.state) (hlife : u.life = l) :
    Counted held fresh u := by
  have hc := h.count f
  rw [Multiset.count_cons_self] at hc
  refine h.update hfile hofile hstate (show 0 = _ by omega)
    (fun g hg => (Multiset.count_cons_of_ne hg _).symm) (fun _ => rfl) (fun _ => .inl rfl)
    (fun _ _ => id) ?_
  rw [hlife, hl]
  rfl

theorem openAs {x : File} {o : Object} (h : Counted held (fun g => g = f ∨ fresh g) s)
    (hf : 0 < (s.file f).ref) (hnone : (s.file f).object = none) (hx : x.ref = (s.file f).ref)
    (ho : x.object = some o) {u : State}
    (hfile : u.file = (s.setFile f x).file) (hofile : u.ofile = s.ofile)
    (hstate : u.state = s.state) (hlife : u.life = s.life ++ [.opened f o]) :
    Counted held fresh u := by
  have hxt : x.type ≠ .FD_NONE := by
    intro hn
    rw [File.object, hn] at ho
    cases ho
  refine h.update hfile hofile hstate (by rw [hx, h.count f]) (fun _ _ => rfl)
    (fun h0 => absurd (hx ▸ h0) hf.ne') (fun hn => absurd hn hxt)
    (fun g hg hfr => hfr.resolve_left hg) ?_
  rw [hlife, ho]
  refine replay_append h.life ?_
  rw [Life.step, if_pos hnone]

end Counted

namespace Accounts

variable {held : Multiset FileSlot} {fresh : FileSlot → Prop}

theorem filealloc (h : Accounts K held fresh s) :
    match Files.filealloc s with
    | (none, t) => t = s
    | (some f, t) => Accounts K (f ::ₘ held) (fun g => g = f ∨ fresh g) t ∧
        (t.file f).object = none ∧ (t.file f).ref = 1 ∧ (s.file f).ref = 0 ∧
        SamePipes s t ∧ t.state = s.state ∧ ∀ g ≠ f, t.file g = s.file g := by
  rw [Files.filealloc]
  cases hfind : (List.finRange NFILE).find? fun f => (s.file f).ref = 0 with
  | none => rfl
  | some f =>
    have h0 : (s.file f).ref = 0 := by simpa using List.find?_some hfind
    have hc := h.count f
    refine ⟨?_, ?_, ?_, h0, samePipes_setRef 1, rfl, fun g hg => State.setFile_file_of_ne _ hg⟩
    · have hfr : Counted held (fun g => g = f ∨ fresh g) s :=
        { h.toCounted with opened := fun g hg => (h.opened g hg).imp_right .inr }
      refine ⟨hfr.setRef ?_ (fun g hg => Multiset.count_cons_of_ne hg _) Nat.one_pos
        fun _ => .inl rfl, h.toPipes.congr (samePipes_setRef 1)⟩
      rw [Multiset.count_cons_self]
      omega
    · rw [State.setFile_file_self, File.object]
      simp only [h.closed f h0]
    · rw [State.setFile_file_self]

theorem filedup (h : Accounts K held fresh s) (hf : 0 < (s.file f).ref)
    (htype : (s.file f).type ≠ .FD_NONE) :
    ∃ t, Files.filedup s f = .ok t ∧ Accounts K (f ::ₘ held) fresh t ∧ SamePipes s t ∧
      t.ofile = s.ofile ∧ t.state = s.state := by
  refine ⟨_, if_neg (by omega), ?_, samePipes_setRef _, rfl, rfl⟩
  refine ⟨h.toCounted.setRef ?_ (fun g hg => Multiset.count_cons_of_ne hg _) (Nat.succ_pos _)
    fun hn => absurd hn htype, h.toPipes.congr (samePipes_setRef _)⟩
  rw [Multiset.count_cons_self, h.count f]
  omega

theorem fileclose (h : Accounts K (f ::ₘ held) fresh s) :
    ∃ t, Files.fileclose K s f = .ok t ∧ Accounts K held fresh t ∧ SamePool s t ∧
      t.ofile = s.ofile ∧ t.state = s.state ∧ (∀ g ≠ f, t.file g = s.file g) ∧
      (t.file f).ref = (s.file f).ref - 1 := by
  have hc := h.count f
  rw [Multiset.count_cons_self] at hc
  have hother : ∀ x, ∀ g ≠ f, (s.setFile f x).file g = s.file g :=
    fun x g hg => State.setFile_file_of_ne _ hg
  simp only [Files.fileclose]
  rw [if_neg (by omega)]
  by_cases hlast : 0 < (s.file f).ref - 1
  · rw [if_pos hlast]
    refine ⟨_, rfl, ?_, ?_, rfl, rfl, hother _, by simp⟩
    · refine ⟨h.toCounted.setRef (by omega) (fun g hg => (Multiset.count_cons_of_ne hg _).symm) hlast
        fun hn => ?_, h.toPipes.congr (samePipes_setRef _)⟩
      exact (h.opened f hn).resolve_left (by omega)
    · exact (samePipes_setRef _).pool
  rw [if_neg hlast]
  have hone : (s.file f).ref = 1 := by omega
  -- Unless it is an end of a pipe, the file loses its object and no pipe changes.
  have hsame : (∀ q w, (s.file f).object ≠ some (.pipe q w)) →
      SamePipes s (s.setFile f { s.file f with ref := 0, type := .FD_NONE }) :=
    fun hn => samePipes_setFile _ fun q w => ⟨(nomatch ·), fun hg => absurd hg (hn q w)⟩
  cases htype : (s.file f).type with
  | FD_NONE =>
    have hobj : (s.file f).object = none := by rw [File.object, htype]
    have hsp := hsame (by simp [hobj])
    refine ⟨_, rfl, ?_, hsp.pool, rfl, rfl, hother _, by simp [hone]⟩
    refine ⟨h.toCounted.release hone (h.life.trans ?_) rfl rfl rfl rfl, h.toPipes.congr hsp⟩
    rw [← hobj, update_eq_self]
  | FD_INODE =>
    have hobj : (s.file f).object = some (.inode (s.file f).ip) := by rw [File.object, htype]
    have hsp := hsame (by simp [hobj])
    refine ⟨_, rfl, ?_, ⟨hsp.pool.pool, hsp.pool.page⟩, rfl, rfl, hother _, by
      simp [hone, State.record]⟩
    refine ⟨h.toCounted.release hone (replay_append h.life ?_) rfl rfl rfl rfl,
      h.toPipes.congr ⟨hsp.object, rfl, rfl⟩⟩
    rw [Life.step, if_pos hobj]
  | FD_PIPE =>
    have hobj : (s.file f).object = some (.pipe (s.file f).pipe (s.file f).writable) := by
      rw [File.object, htype]
    set x : Life := .closed f (.pipe (s.file f).pipe (s.file f).writable)
    set t := (s.setFile f { s.file f with ref := 0, type := .FD_NONE }).record x with ht
    have hself : t.file f = { s.file f with ref := 0, type := .FD_NONE } :=
      State.setFile_file_self _
    have hclosing : Pipes.Closing s t f (s.file f).pipe (s.file f).writable :=
      ⟨hobj, by rw [hself]; rfl, hother _, rfl, rfl⟩
    obtain ⟨u, hu, hpipes, hpool, hfile, hstate, hofile, hlife⟩ := h.toPipes.pipeclose hclosing
    refine ⟨u, hu, ?_, hpool, hofile, hstate, ?_, ?_⟩
    · refine ⟨h.toCounted.release hone (replay_append h.life ?_) hfile hofile hstate hlife, hpipes⟩
      rw [Life.step, if_pos hobj]
    · rw [hfile]
      exact hother _
    · rw [hfile, hself, hone]

theorem fdalloc (h : Accounts K (f ::ₘ held) fresh s) (hp : s.state p = .LIVE) :
    match Files.fdalloc s p f with
    | (none, t) => t = s
    | (some fd, t) => Accounts K held fresh t ∧ t = s.setFd p fd (some f) := by
  rw [Files.fdalloc]
  cases hfind : (List.finRange NOFILE).find? fun fd => s.ofile p fd = none with
  | none => rfl
  | some fd =>
    have h0 : s.ofile p fd = none := by simpa using List.find?_some hfind
    exact ⟨⟨h.toCounted.setFd_give (by simp [hp]) (by simp [hp]) h0,
      h.toPipes.congr (samePipes_setFd _)⟩, rfl⟩

end Accounts

/-- What a call leaves: settled accounts, the same pool of pages, the same processes. -/
structure Leaves (K : Image) (s t : State) : Prop where
  settled : Settled K t
  pool : SamePool s t
  state : t.state = s.state

theorem Leaves.refl (h : Settled K s) : Leaves K s s := ⟨h, .refl s, rfl⟩

theorem Settled.fileclose_fresh {u : State} {held : Multiset FileSlot} {fresh : FileSlot → Prop}
    (h : Accounts K (f ::ₘ held) (fun g => g = f ∨ fresh g) s) (hpool : SamePool u s)
    (hstate : s.state = u.state) (hf : (s.file f).ref = 1) :
    ∃ t, fileclose K s f = .ok t ∧ Accounts K held fresh t ∧ SamePool u t ∧ t.state = u.state ∧
      ∀ g ≠ f, t.file g = s.file g := by
  obtain ⟨t, ht, hacc, hpool', -, hstate', hother, href⟩ := h.fileclose
  exact ⟨t, ht, ⟨hacc.toCounted.settle (by rw [href, hf]), hacc.toPipes⟩, hpool.trans hpool',
    hstate'.trans hstate, hother⟩

theorem sysOpen_ok (h : Settled K s) (hp : s.state p = .LIVE) (found : Option ℕ)
    (omode : BitVec 32) : ∃ r t, sysOpen K s p found omode = .ok (r, t) ∧ Leaves K s t := by
  cases found with
  | none => exact ⟨_, s, rfl, .refl h⟩
  | some ip =>
    have hfa := h.filealloc
    simp only [sysOpen]
    rcases hf : filealloc s with ⟨_ | f, s1⟩
    · simp only [hf] at hfa
      subst hfa
      exact ⟨_, _, rfl, .refl h⟩
    · simp only [hf] at hfa
      obtain ⟨h1, hnone, href, -, hsp, hstate, -⟩ := hfa
      have hfd := h1.fdalloc (p := p) (by rw [hstate, hp])
      dsimp only
      rcases hd : fdalloc s1 p f with ⟨_ | fd, s2⟩
      · simp only [hd] at hfd
        subst hfd
        obtain ⟨t, ht, hacc, hpool, hst, -⟩ := Settled.fileclose_fresh h1 hsp.pool hstate href
        exact ⟨-1, t, by simp only [ht]; rfl, hacc, hpool, hst⟩
      · simp only [hd] at hfd
        obtain ⟨h2, rfl⟩ := hfd
        have hsp' : SamePipes s (openFile (s1.setFd p fd (some f)) f ip omode) := by
          refine ⟨fun g q w => ?_, hsp.pipe, hsp.kmem⟩
          rw [← hsp.object, openFile]
          by_cases hg : g = f
          · subst hg
            simp only [State.record, State.setFile_file_self, hnone, reduceCtorEq, iff_false]
            exact fun h => by cases h
          · simp only [State.record, State.setFile_file_of_ne _ hg]
            exact Iff.rfl
        refine ⟨_, _, rfl, ?_, hsp'.pool, hstate⟩
        have hpos : 0 < (s1.file f).ref := by omega
        have hopen := h2.toCounted.openAs (x := { s1.file f with
            type := .FD_INODE, ip := ip, off := 0
            readable := omode &&& O_WRONLY = 0
            writable := omode &&& O_WRONLY ≠ 0 ∨ omode &&& O_RDWR ≠ 0 })
          (u := openFile (s1.setFd p fd (some f)) f ip omode) hpos hnone rfl rfl rfl rfl rfl rfl
        exact ⟨hopen, h.toPipes.congr hsp'⟩

theorem filedup_setFd (x : Option FileSlot) :
    filedup (s.setFd p fd x) f = (filedup s f).map fun t => t.setFd p fd x := by
  have hfile : (s.setFd p fd x).file = s.file := rfl
  simp only [filedup, hfile]
  split_ifs <;> rfl

theorem pipeclose_setFd (q : Frame) (w : Bool) (x : Option FileSlot) :
    pipeclose K (s.setFd p fd x) q w = (pipeclose K s q w).map fun t => t.setFd p fd x := by
  have hpipe : (s.setFd p fd x).pipe = s.pipe := rfl
  have hkmem : (s.setFd p fd x).kmem = s.kmem := rfl
  simp only [pipeclose, hpipe, hkmem]
  generalize (if w = true then ({ s.pipe q with writeopen := false } : Pipe)
    else { s.pipe q with readopen := false }) = y
  split_ifs
  · cases kfree K s.kmem q <;> rfl
  · rfl

theorem fileclose_setFd (x : Option FileSlot) :
    fileclose K (s.setFd p fd x) f = (fileclose K s f).map fun t => t.setFd p fd x := by
  have hfile : (s.setFd p fd x).file = s.file := rfl
  simp only [fileclose, hfile]
  split_ifs
  · rfl
  · rfl
  · cases (s.file f).type with
    | FD_NONE => rfl
    | FD_INODE => rfl
    | FD_PIPE =>
      dsimp only
      rw [← pipeclose_setFd]
      rfl

theorem Settled.open_of_ofile (h : Settled K s) (hfd : s.ofile p fd = some f) :
    0 < (s.file f).ref ∧ (s.file f).type ≠ .FD_NONE := by
  have hc := h.count f
  have hpos := State.slots_pos hfd
  have href : 0 < (s.file f).ref := by omega
  refine ⟨href, fun hn => ?_⟩
  rcases h.opened f hn with h0 | hfr
  · omega
  · exact hfr

theorem argfd_some {n : ℤ} (h : argfd s p n = some (fd, f)) : s.ofile p fd = some f := by
  simp only [argfd] at h
  split_ifs at h
  simp only [Option.map_eq_some_iff, Prod.mk.injEq] at h
  obtain ⟨g, hg, rfl, rfl⟩ := h
  exact hg

theorem sysDup_ok (h : Settled K s) (hp : s.state p = .LIVE) (n : ℤ) :
    ∃ r t, sysDup s p n = .ok (r, t) ∧ Leaves K s t := by
  simp only [sysDup]
  rcases harg : argfd s p n with _ | ⟨fd, f⟩
  · exact ⟨_, _, rfl, .refl h⟩
  obtain ⟨href, htype⟩ := h.open_of_ofile (argfd_some harg)
  obtain ⟨t, ht, hacc, hsp, hofile, hstate⟩ := h.filedup href htype
  dsimp only [fdalloc]
  cases hfind : (List.finRange NOFILE).find? fun fd => s.ofile p fd = none with
  | none => exact ⟨_, _, rfl, .refl h⟩
  | some fd' =>
    have h0 : s.ofile p fd' = none := by simpa using List.find?_some hfind
    -- `fdalloc` comes first in the source; the two touch different tables.
    refine ⟨fd', t.setFd p fd' (some f), by simp only [filedup_setFd, ht]; rfl, ?_, ?_, hstate⟩
    · exact ⟨hacc.toCounted.setFd_give (by simp [hstate, hp]) (by simp [hstate, hp])
        (by rw [hofile, h0]), hacc.toPipes.congr (samePipes_setFd _)⟩
    · exact hsp.pool.trans (samePipes_setFd _).pool

theorem sysClose_ok (h : Settled K s) (n : ℤ) :
    ∃ r t, sysClose K s p n = .ok (r, t) ∧ Leaves K s t := by
  simp only [sysClose]
  rcases harg : argfd s p n with _ | ⟨fd, f⟩
  · exact ⟨_, _, rfl, .refl h⟩
  have htake : Accounts K (f ::ₘ 0) (fun _ => False) (s.setFd p fd none) :=
    ⟨h.toCounted.setFd_take (argfd_some harg), h.toPipes.congr (samePipes_setFd none)⟩
  obtain ⟨t, ht, hacc, hpool, -, hstate, -⟩ := htake.fileclose
  exact ⟨0, t, by simp only [ht]; rfl, hacc, (samePipes_setFd none).pool.trans hpool, hstate⟩

theorem pipealloc_ok (h : Settled K s) :
    ∃ r t, pipealloc K s = .ok (r, t) ∧ SamePool s t ∧ t.state = s.state ∧
      match r with
      | none => Settled K t
      | some (f0, f1) => Accounts K (f0 ::ₘ f1 ::ₘ 0) (fun _ => False) t := by
  simp only [pipealloc]
  have hfa0 := h.filealloc
  rcases hf0 : filealloc s with ⟨_ | f0, s1⟩
  · simp only [hf0] at hfa0
    subst hfa0
    exact ⟨none, s1, rfl, .refl s1, rfl, h⟩
  simp only [hf0] at hfa0
  obtain ⟨h1, hnone0, href0, -, hsp1, hstate1, -⟩ := hfa0
  have hfa1 := h1.filealloc
  dsimp only
  rcases hf1 : filealloc s1 with ⟨_ | f1, s2⟩
  · simp only [hf1] at hfa1
    subst hfa1
    obtain ⟨t, ht, hacc, hpool, hst, -⟩ := Settled.fileclose_fresh h1 hsp1.pool hstate1 href0
    exact ⟨none, t, by simp only [ht]; rfl, hpool, hst, hacc⟩
  simp only [hf1] at hfa1
  obtain ⟨h2, hnone1, href1, hwas1, hsp2, hstate2, hother⟩ := hfa1
  have hne : f0 ≠ f1 := by
    rintro rfl
    omega
  have hpool2 := hsp1.pool.trans hsp2.pool
  have hst2 := hstate2.trans hstate1
  have href : (s2.file f0).ref = 1 := by rw [hother f0 hne, href0]
  rw [Multiset.cons_swap] at h2
  have h2' : Accounts K (f0 ::ₘ f1 ::ₘ 0) (fun g => g = f0 ∨ g = f1 ∨ False) s2 :=
    { h2 with opened := fun g hg => (h2.opened g hg).imp_right or_left_comm.mp }
  dsimp only
  rcases hfree : s2.kmem.freelist with _ | ⟨q, fs⟩
  · -- No page: both files are closed again.
    have hk : kalloc s2.kmem = (none, s2.kmem) := by simp only [kalloc, hfree]
    obtain ⟨t, ht, hacc, hpool, hst, hkeep⟩ := Settled.fileclose_fresh h2' hpool2 hst2 href
    obtain ⟨u, hu, hacc', hpool', hst', -⟩ :=
      Settled.fileclose_fresh hacc hpool hst (by rw [hkeep f1 hne.symm, href1])
    exact ⟨none, u, by simp only [hk, ht]; simp only [bind, Except.bind, hu]; rfl, hpool', hst', hacc'⟩
  · have hk : kalloc s2.kmem = (some q, { s2.kmem with freelist := fs }) := by
      simp only [kalloc, hfree]
    have hn0 : (s2.file f0).object = none := by rw [hother f0 hne, hnone0]
    obtain ⟨hpipes, hpool⟩ := h2.toPipes.connect hne hn0 hnone1 hfree
    refine ⟨some (f0, f1), _, by simp only [hk], hpool2.trans hpool, hst2, ?_⟩
    refine ⟨?_, hpipes⟩
    -- The two files are opened one after the other, as in the source.
    have hopen0 := h2'.toCounted.openAs
      (x := { s2.file f0 with type := .FD_PIPE, readable := true, writable := false, pipe := q })
      (u := (s2.setFile f0 { s2.file f0 with
        type := .FD_PIPE, readable := true, writable := false, pipe := q }).record
          (.opened f0 (.pipe q false)))
      (by omega) hn0 rfl rfl rfl rfl rfl rfl
    have hf1 : ∀ x y, ((s2.setFile f0 x).record y).file f1 = s2.file f1 :=
      fun x _ => State.setFile_file_of_ne x hne.symm
    have hpos1 : 0 < (s2.file f1).ref := by omega
    refine hopen0.openAs
      (x := { s2.file f1 with type := .FD_PIPE, readable := false, writable := true, pipe := q })
      (by rw [hf1]; exact hpos1) (by rw [hf1]; exact hnone1) (by rw [hf1]) rfl ?_ rfl rfl ?_
    · simp only [connect, State.record, State.setFile, update_of_ne hne.symm]
    · simp only [connect, State.record, State.setFile, List.append_assoc]

theorem Accounts.fileclose_two (h : Accounts K (f ::ₘ g ::ₘ 0) (fun _ => False) s) :
    ∃ t u, Files.fileclose K s f = .ok t ∧ Files.fileclose K t g = .ok u ∧ Leaves K s u := by
  obtain ⟨t, ht, hacc, hpool, -, hstate, -⟩ := h.fileclose
  obtain ⟨u, hu, hacc', hpool', -, hstate', -⟩ := hacc.fileclose
  exact ⟨t, u, ht, hu, hacc', hpool.trans hpool', hstate'.trans hstate⟩

theorem sysPipe_ok (h : Settled K s) (hp : s.state p = .LIVE) (arg : Bool) :
    ∃ r t, sysPipe K s p arg = .ok (r, t) ∧ Leaves K s t := by
  cases arg with
  | false => exact ⟨_, _, rfl, .refl h⟩
  | true =>
    obtain ⟨r, s1, hpa, hpool1, hstate1, hr⟩ := pipealloc_ok h
    simp only [sysPipe, hpa, Bool.true_eq_false, if_false, bind, Except.bind]
    rcases r with _ | ⟨rf, wf⟩
    · exact ⟨_, _, rfl, hr, hpool1, hstate1⟩
    have hlive : s1.state p = .LIVE := by rw [hstate1, hp]
    have hfd0 := hr.fdalloc hlive
    dsimp only
    rcases hd0 : fdalloc s1 p rf with ⟨_ | fd0, s2⟩
    · simp only [hd0] at hfd0
      subst hfd0
      obtain ⟨t, u, ht, hu, hleaves⟩ := hr.fileclose_two
      exact ⟨-1, u, by simp only [ht, hu]; rfl, hleaves.settled, hpool1.trans hleaves.pool,
        hleaves.state.trans hstate1⟩
    simp only [hd0] at hfd0
    obtain ⟨h2, hs2⟩ := hfd0
    have hstate2 : s2.state = s.state := by
      rw [hs2]
      exact hstate1
    have hpool2 : SamePool s s2 := by
      rw [hs2]
      exact hpool1.trans (samePipes_setFd _).pool
    have hfd1 := h2.fdalloc (p := p) (by rw [hstate2, hp])
    dsimp only
    rcases hd1 : fdalloc s2 p wf with ⟨_ | fd1, s3⟩
    · -- The first descriptor is cleared again.
      simp only [hd1] at hfd1
      subst hfd1
      have hofile : s3.ofile p fd0 = some rf := by
        rw [hs2, State.setFd_ofile, if_pos ⟨rfl, rfl⟩]
      have h3 : Accounts K (rf ::ₘ wf ::ₘ 0) (fun _ => False) (s3.setFd p fd0 none) :=
        ⟨h2.toCounted.setFd_take hofile, h2.toPipes.congr (samePipes_setFd none)⟩
      obtain ⟨t, u, ht, hu, hleaves⟩ := h3.fileclose_two
      exact ⟨-1, u, by simp only [ht, hu]; rfl, hleaves.settled,
        hpool2.trans ((samePipes_setFd none).pool.trans hleaves.pool), hleaves.state.trans hstate2⟩
    · simp only [hd1] at hfd1
      obtain ⟨h3, rfl⟩ := hfd1
      exact ⟨0, _, rfl, h3, hpool2.trans (samePipes_setFd _).pool, hstate2⟩

theorem forkFiles_ok (h : Settled K s) (hnp : s.state np = .EMBRYO)
    (hempty : ∀ fd, s.ofile np fd = none) :
    ∃ t, forkFiles s p np = .ok t ∧ Settled K t ∧ SamePipes s t ∧ t.state = s.state := by
  -- The descriptors of the child that the loop has not reached are still empty.
  have hloop := Runs.foldlM_ok (b := forkFile p np)
    (I := fun l t => l.Nodup ∧ Settled K t ∧ SamePipes s t ∧ t.state = s.state ∧
      ∀ fd ∈ l, t.ofile np fd = none) ?_
    (l := List.finRange NOFILE) (s := s)
    ⟨List.nodup_finRange _, h, ⟨fun _ _ _ => Iff.rfl, rfl, rfl⟩, rfl, fun fd _ => hempty fd⟩
  · obtain ⟨t, ht, -, hset, hsp, hstate, -⟩ := hloop
    exact ⟨t, ht, hset, hsp, hstate⟩
  · rintro fd l t ⟨hnodup, hset, hsp, hstate, hrest⟩
    rw [List.nodup_cons] at hnodup
    simp only [forkFile]
    rcases hfd : t.ofile p fd with _ | f
    · exact ⟨t, rfl, hnodup.2, hset, hsp, hstate, fun e he => hrest e (List.mem_cons_of_mem _ he)⟩
    · obtain ⟨href, htype⟩ := hset.open_of_ofile hfd
      obtain ⟨u, hu, hacc, hsp', hofile, hstate'⟩ := hset.filedup href htype
      have hst : u.state np = .EMBRYO := by rw [hstate', hstate, hnp]
      refine ⟨u.setFd np fd (some f), by simp only [hu]; rfl, hnodup.2, ⟨?_, ?_⟩, ?_, ?_, ?_⟩
      · exact hacc.toCounted.setFd_give (by simp [hst]) (by simp [hst])
          (by rw [hofile]; exact hrest fd List.mem_cons_self)
      · exact hacc.toPipes.congr (samePipes_setFd _)
      · exact ⟨fun g q w => (hsp'.object g q w).trans (hsp.object g q w), hsp'.pipe.trans hsp.pipe,
          hsp'.kmem.trans hsp.kmem⟩
      · exact hstate'.trans hstate
      · intro e he
        rw [State.setFd_ofile, if_neg, hofile]
        · exact hrest e (List.mem_cons_of_mem _ he)
        · rintro ⟨-, rfl⟩
          exact hnodup.1 he

theorem exitFiles_ok (h : Settled K s) :
    ∃ t, exitFiles K s p = .ok t ∧ Leaves K s t ∧ ∀ fd, t.ofile p fd = none := by
  have hloop := Runs.foldlM_ok (b := exitFile K p)
    (I := fun l t => Leaves K s t ∧ ∀ fd ∉ l, t.ofile p fd = none) ?_
    (l := List.finRange NOFILE) (s := s)
    ⟨.refl h, fun fd hfd => absurd (List.mem_finRange fd) hfd⟩
  · obtain ⟨t, ht, hleaves, hempty⟩ := hloop
    exact ⟨t, ht, hleaves, fun fd => hempty fd List.not_mem_nil⟩
  · rintro fd l t ⟨hleaves, hdone⟩
    have hrest : ∀ e ∉ l, e ≠ fd → t.ofile p e = none := fun e he hne =>
      hdone e fun hmem => (List.mem_cons.mp hmem).elim hne he
    simp only [exitFile]
    rcases hfd : t.ofile p fd with _ | f
    · refine ⟨t, rfl, hleaves, fun e he => ?_⟩
      by_cases hne : e = fd
      · rw [hne, hfd]
      · exact hrest e he hne
    · -- The source clears the descriptor after `fileclose`, which does not look at it.
      have htake : Accounts K (f ::ₘ 0) (fun _ => False) (t.setFd p fd none) :=
        ⟨hleaves.settled.toCounted.setFd_take hfd,
          hleaves.settled.toPipes.congr (samePipes_setFd none)⟩
      obtain ⟨u, hu, hacc, hpool, hofile, hstate, -⟩ := htake.fileclose
      rw [fileclose_setFd] at hu
      rcases hc : fileclose K t f with e | v
      · rw [hc] at hu
        cases hu
      · rw [hc] at hu
        cases hu
        refine ⟨_, by simp only [hc]; rfl, ⟨hacc, ?_, hstate.trans hleaves.state⟩, fun e he => ?_⟩
        · exact hleaves.pool.trans ((samePipes_setFd none).pool.trans hpool)
        · rw [hofile, State.setFd_ofile]
          split_ifs with heq
          · rfl
          · exact hrest e he fun hne => heq ⟨rfl, hne⟩

/-- Between two calls the accounts are settled and no process is half made. -/
structure Between (K : Image) (s : State) : Prop where
  settled : Settled K s
  made : ∀ p, s.state p ≠ .EMBRYO

theorem Counted.setState {held : Multiset FileSlot} {fresh : FileSlot → Prop}
    (h : Counted held fresh s) {x : ProcState} (hx : ∀ fd, s.ofile p fd = none) :
    Counted held fresh (s.setState p x) := by
  refine { h with dead := fun q fd hq => ?_ }
  change s.ofile q fd = none
  rw [State.setState_state] at hq
  split_ifs at hq with hqp
  · rw [hqp]
    exact hx fd
  · exact h.dead q fd hq

theorem Settled.setState (h : Settled K s) {x : ProcState} (hx : ∀ fd, s.ofile p fd = none) :
    Settled K (s.setState p x) :=
  ⟨h.toCounted.setState hx, h.toPipes.congr ⟨fun _ _ _ => Iff.rfl, rfl, rfl⟩⟩

theorem made_setState {x : ProcState} (h : ∀ q, q ≠ p → s.state q ≠ .EMBRYO) (hx : x ≠ .EMBRYO)
    (q : Slot) : (s.setState p x).state q ≠ .EMBRYO := by
  rw [State.setState_state]
  split_ifs with hqp
  · exact hx
  · exact h q hqp

theorem Counted.setLive {held : Multiset FileSlot} {fresh : FileSlot → Prop}
    (h : Counted held fresh s) : Counted held fresh (s.setState p .LIVE) := by
  refine { h with dead := fun q fd hq => ?_ }
  change s.ofile q fd = none
  rw [State.setState_state] at hq
  split_ifs at hq with hqp
  · simp only [or_self] at hq
  · exact h.dead q fd hq

theorem Between.fork (h : Between K s) (hnp : s.state np = .UNUSED) (memory : Bool) :
    ∃ t, fork s p np memory = .ok t ∧ Between K t := by
  have hempty : ∀ fd, s.ofile np fd = none := fun fd => h.settled.dead np fd (.inl hnp)
  have hembryo : Settled K (s.setState np .EMBRYO) := h.settled.setState hempty
  have hothers : ∀ q, q ≠ np → (s.setState np .EMBRYO).state q ≠ .EMBRYO := by
    intro q hq
    rw [State.setState_state, if_neg hq]
    exact h.made q
  cases memory with
  | false =>
    exact ⟨_, rfl, hembryo.setState hempty, made_setState hothers (by decide)⟩
  | true =>
    obtain ⟨t, ht, hset, hsp, hstate⟩ :=
      forkFiles_ok (p := p) hembryo (update_self _ _ _) hempty
    refine ⟨t.setState np .LIVE, by simp only [Files.fork, ht]; rfl, ?_, ?_⟩
    · exact ⟨hset.toCounted.setLive, hset.toPipes.congr ⟨fun _ _ _ => Iff.rfl, rfl, rfl⟩⟩
    · exact made_setState (by rw [hstate]; exact hothers) (by decide)

theorem Between.exit (h : Between K s) : ∃ t, exit K s p = .ok t ∧ Between K t := by
  obtain ⟨t, ht, hleaves, hempty⟩ := exitFiles_ok (p := p) h.settled
  refine ⟨t.setState p .ZOMBIE, by simp only [Files.exit, ht]; rfl, ?_, ?_⟩
  · exact hleaves.settled.setState hempty
  · exact made_setState (fun q _ => by rw [hleaves.state]; exact h.made q) (by decide)

theorem Between.memory {free : List Frame} (h : Between K s) (hfree : s.Pooled K free) :
    Between K { s with kmem := { s.kmem with freelist := free } } := by
  obtain ⟨hnodup, hmanaged, hapart⟩ := hfree
  refine ⟨⟨{ h.settled.toCounted with }, { h.settled.toPipes with
    nodup := hnodup, free := hmanaged, apart := fun {f q w} hf => ?_ }⟩, h.made⟩
  simp only [File.object] at hf
  cases htype : (s.file f).type with
  | FD_PIPE =>
    simp only [htype, Option.some.injEq, Object.pipe.injEq] at hf
    exact hf.1 ▸ hapart f htype
  | FD_NONE => simp only [htype, reduceCtorEq] at hf
  | FD_INODE => simp only [htype, Option.some.injEq, reduceCtorEq] at hf

theorem Between.call {x : Except Panic (ℤ × State)} (h : Between K s)
    (hx : ∃ r t, x = .ok (r, t) ∧ Leaves K s t) : ∃ t, x.map Prod.snd = .ok t ∧ Between K t := by
  obtain ⟨r, t, rfl, hleaves⟩ := hx
  exact ⟨t, rfl, hleaves.settled, fun p => by rw [hleaves.state]; exact h.made p⟩

theorem Between.guarded {c : Prop} [Decidable c] {x : Except Panic State} (h : Between K s)
    (hx : c → ∃ t, x = .ok t ∧ Between K t) :
    ∃ t, (if c then x else .ok s) = .ok t ∧ Between K t := by
  split_ifs with hc
  · exact hx hc
  · exact ⟨s, rfl, h⟩

theorem Between.step (h : Between K s) (e : Event) :
    ∃ t, Files.step K s e = .ok t ∧ Between K t := by
  cases e with
  | «open» p found omode => exact h.guarded fun hp => h.call (sysOpen_ok h.settled hp found omode)
  | dup p fd => exact h.guarded fun hp => h.call (sysDup_ok h.settled hp fd)
  | pipe p arg => exact h.guarded fun hp => h.call (sysPipe_ok h.settled hp arg)
  | close p fd => exact h.guarded fun _ => h.call (sysClose_ok h.settled fd)
  | fork p np memory => exact h.guarded fun hp => h.fork hp.2 memory
  | exit p => exact h.guarded fun _ => h.exit
  | wait p =>
    exact h.guarded fun hp => ⟨_, rfl, h.settled.setState fun fd => h.settled.dead p fd (.inr hp),
      made_setState (fun q _ => h.made q) (by decide)⟩
  | memory free => exact h.guarded fun hfree => ⟨_, rfl, h.memory hfree⟩

theorem boot_between (page : Frame → Page) (p : Slot) : Between K (boot page p) := by
  have hobj : ∀ f, ((boot page p).file f).object = none := fun _ => rfl
  refine ⟨⟨?_, ?_⟩, made_setState (s := { boot page p with state := fun _ => .UNUSED })
    (fun _ _ => by simp) (by decide)⟩
  · refine ⟨fun f => ?_, fun _ _ _ => rfl, fun _ _ => rfl, fun _ _ => .inl rfl, rfl⟩
    simp [boot, State.slots]
  · refine ⟨List.nodup_nil, by simp [boot], ?_, ?_, ?_, ?_⟩
    all_goals
      intros
      simp_all

theorem run_between (h : Between K s) (es : List Event) : ∃ t, run K s es = .ok t ∧ Between K t :=
  Runs.foldlM_ok (I := fun _ t => Between K t) (fun e _ _ ht => ht.step e) h

theorem Between.slots_eq (h : Between K s) (f : FileSlot) :
    s.slots f = (Finset.univ.filter fun x : Slot × Fd =>
      s.state x.1 = .LIVE ∧ s.ofile x.1 x.2 = some f).card := by
  rw [State.slots]
  refine congrArg Finset.card (Finset.filter_congr ?_)
  rintro ⟨p, fd⟩ -
  refine ⟨fun hfd => ⟨?_, hfd⟩, And.right⟩
  have hdead := h.settled.dead p fd
  dsimp only at hfd ⊢
  rw [hfd] at hdead
  cases hstate : s.state p with
  | LIVE => rfl
  | UNUSED => simp [hstate] at hdead
  | ZOMBIE => simp [hstate] at hdead
  | EMBRYO => exact absurd hstate (h.made p)

/-- `ref` counts the descriptors, and each open file is closed exactly once. -/
theorem file_refs_count_descriptors (K : Image) (page : Frame → Page) (p : Slot)
    (es : List Event) :
    ∃ s, run K (boot page p) es = .ok s ∧
      (∀ f, (s.file f).ref = (Finset.univ.filter fun x : Slot × Fd =>
        s.state x.1 = .LIVE ∧ s.ofile x.1 x.2 = some f).card) ∧
      (∀ f, (s.file f).ref = 0 → (s.file f).type = .FD_NONE) ∧
      replay s.life = some (fun f => (s.file f).object) ∧
      ∀ f, (s.file f).object = none ↔ (s.file f).ref = 0 := by
  obtain ⟨s, hs, h⟩ := run_between (K := K) (boot_between page p) es
  refine ⟨s, hs, fun f => ?_, h.settled.closed, h.settled.life, fun f => ?_⟩
  · rw [← h.slots_eq f, h.settled.count f, Multiset.count_zero, Nat.add_zero]
  · constructor
    · intro hobj
      have htype : (s.file f).type = .FD_NONE := by
        cases htype : (s.file f).type <;> simp [File.object, htype] at hobj
        rfl
      exact (h.settled.opened f htype).resolve_right id
    · intro href
      simp only [File.object, h.settled.closed f href]

end Xv6.Files
