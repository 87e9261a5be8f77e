import Xv6.Fs.Balance
import Xv6.Fs.Transactions
import Xv6.Mkfs.Boot

/-!
# Transactions bracket every update

A call performs `begin_op` outside a transaction and `end_op` inside one, and what it does to the
disk inside.
-/

namespace Xv6.Fs

open Lib Lib.Prog Lib.Runs
open Function (update_of_ne update_self update_apply update_eq_self update)

def Obeys (g : Geometry) : ∀ β, SysOp β → SysState → Prop
  | _, .inl o, s => s.inOp = true ∨ Unlogged g _ o s.kernel
  | _, .inr .beginOp, s => s.inOp = false
  | _, .inr .endOp, s => s.inOp = true
  | _, .inr (.isPipe _), _ | _, .inr (.setPipe _ _), _ => True

def Keeps : ∀ β, Op β → Prop
  | _, .setTables _ => False
  | _, _ => True

namespace Blocks

def loaded (g : Geometry) (k : BState) (ip : ISlot) : Dinode × Addrs :=
  if (k.cache ip).valid then ((k.cache ip).din, k.vol.addrs ip)
  else (readDinode g k.vol.disk (k.cache ip).inum, readAddrs g k.vol.disk (k.cache ip).inum)

def ReadMapped (g : Geometry) (k : BState) (ip : ISlot) (off n : ℕ) : Prop :=
  (loaded g k ip).1.type ≠ T_DEV → ∀ j < off + n, off ≤ j → j < (loaded g k ip).1.size →
    j < MAXFILE * BSIZE ∧ HasBlock (loaded g k ip).2 k.vol.disk j

theorem ilock_loaded {g : Geometry} {ip : ISlot} {k k' : BState} (h : Blocks.ilock g ip k = .ok ((), k')) :
    (k'.cache ip).din = (loaded g k ip).1 ∧ k'.vol.addrs ip = (loaded g k ip).2 ∧
      k'.vol.disk = k.vol.disk := by
  simp only [Blocks.ilock] at h
  unfold loaded
  split_ifs at h ⊢
  · cases h
    simp only [Kernel.setInode, update_self, true_and]
  · cases h
    simp only [setStore, Kernel.setInode, update_self, true_and]

end Blocks

def SysCall.ReadsMapped (g : Geometry) (s : SysState) (p : Pid) : SysCall → Prop
  | .read (some (fd, n)) _ => ∀ f, 0 ≤ fd → fd < NOFILE → s.kernel.tables.ofile p fd.toNat = some f →
      (s.kernel.tables.file f).readable = true → (s.kernel.tables.file f).type = .inode →
      Blocks.ReadMapped g s.kernel (s.kernel.tables.file f).ip (s.kernel.tables.file f).off n
  | _ => True

theorem run_fs {α : Type} (g : Geometry) (c : FsProg α) (s : SysState) :
    (Transactions.fs c).run (performS g) s = match c.run (performB g) s.kernel with
      | .ok (a, k) => .ok (a, { s with kernel := k })
      | .error f => .error f := by
  induction c generalizing s with
  | pure a => rfl
  | fault f => rfl
  | op o k ih =>
    simp only [Transactions.fs, inl, run, performS]
    cases performB g _ o s.kernel with
    | error f => rfl
    | ok r => exact ih r.1 { s with kernel := r.2 }

namespace Transactions

variable {g : Geometry} {s : SysState} {b : Bool} {t : Tables} {q : FileSlot → Bool} {f : FileSlot}
variable {α : Type} {p : Pid} {ip dp : ISlot}

abbrev Brackets (g : Geometry) (c : SysProg α) (Q : α → SysState → Prop) (s : SysState) : Prop :=
  Safe (performS g) (Obeys g) c Q s

structure At (b : Bool) (t : Tables) (q : FileSlot → Bool) (s : SysState) : Prop where
  inOp : s.inOp = b
  tables : s.kernel.tables = t
  pipe : s.pipe = q

def Tidy (t : Tables) (q : FileSlot → Bool) : Prop :=
  ∀ f, (t.file f).ref = 0 → (t.file f).type = .none ∧ q f = false

def Clear (b : Bool) (s : SysState) : Prop := ∃ t q, At b t q s ∧ Tidy t q

abbrev Idle (s : SysState) : Prop := Clear false s

abbrev Kept (g : Geometry) (t : Tables) (c : FsProg α) : Prop :=
  Acts g (fun k => k.tables = t) c fun _ k => k.tables = t

theorem iget_tables {i : ℕ} {k k' : BState} (h : k.iget i = .ok (ip, k')) : k'.tables = k.tables := by
  rcases k.iget_cases i with ⟨jp, -, -, hok⟩ | ⟨jp, -, -, hok⟩ | ⟨-, herr⟩
  · rw [hok] at h
    cases h
    rfl
  · rw [hok] at h
    cases h
    rfl
  · rw [herr] at h
    cases h

variable {β : Type}

theorem performB_tables {o : Op β} {k k' : BState} {x : β} (ho : Keeps β o)
    (h : performB g β o k = .ok (x, k')) : k'.tables = k.tables := by
  by_cases hq : o.quiet = true
  · exact (sameSlots_quiet hq h).1
  cases o with
  | iget i => exact iget_tables h
  | idup ip =>
    cases h
    rfl
  | ilock ip =>
    simp only [performB, Blocks.ilock] at h
    split_ifs at h
    · cases h
      rfl
    · cases h
      rfl
  | iunlock ip =>
    simp only [performB, Kernel.iunlock] at h
    split_ifs at h
    cases h
    rfl
  | iput ip =>
    simp only [performB, Blocks.iput, Blocks.itrunc] at h
    split_ifs at h
    · split at h
      · cases h
      next h1 =>
        split at h1
        · cases h1
        · cases h1
          cases h
          rfl
    · cases h
      rfl
  | ialloc type =>
    simp only [performB, Blocks.ialloc] at h
    split at h
    · cases h
    · have hsame := iget_tables h
      exact hsame
  | tables =>
    cases h
    rfl
  | setTables u => exact ho.elim
  | inum _ | dinode _ | updateNlink _ _ | updateNew _ _ _ | readi _ _ _ | writei _ _ _ | readDirent _ _
  | writeDirent _ _ _ => exact absurd rfl hq

theorem performS_inl {o : Op β} {s' : SysState} {x : β} (ho : Keeps β o) (hs : At b t q s)
    (h : performS g β (.inl o) s = .ok (x, s')) : At b t q s' := by
  simp only [performS] at h
  split at h
  next hok =>
    cases h
    exact ⟨hs.inOp, (performB_tables ho hok).trans hs.tables, hs.pipe⟩
  · cases h

theorem inside {c : FsProg α} (hc : Kept g t c) (hs : At true t q s) :
    Brackets g (fs c) (fun _ => At true t q) s := by
  have hfs : Only (fun _ o => ∃ o', o = .inl o') (fs c) := (only_true c).inl fun _ o _ => ⟨o, rfl⟩
  have hsafe : Brackets g (fs c) (fun _ s' => s'.inOp = true ∧ s'.pipe = q) s := by
    refine hfs.safe ?_ ⟨hs.inOp, hs.pipe⟩
    rintro β _ s ⟨o, rfl⟩ hs
    refine ⟨.inl hs.1, fun x s' hok => ?_⟩
    simp only [performS] at hok
    split at hok
    · cases hok
      exact hs
    · cases hok
  refine hsafe.of_run fun a s' hrun hs' => ⟨hs'.1, ?_, hs'.2⟩
  rw [run_fs] at hrun
  split at hrun
  next hok =>
    cases hrun
    have hkept := wp_ok (hc s.kernel hs.tables) hok
    exact hkept
  · cases hrun

theorem outside {o : Op β} (ho : Keeps β o) (hs : At b t q s)
    (hlog : Unlogged g β o s.kernel) : Brackets g (fs (.call o)) (fun _ => At b t q) s :=
  ⟨.inr hlog, fun _ _ hok => performS_inl ho hs hok⟩

theorem begins (hs : At false t q s) : Brackets g beginOp (fun _ => At true t q) s := by
  refine ⟨hs.inOp, fun x s' hok => ?_⟩
  cases hok
  exact ⟨rfl, hs.tables, hs.pipe⟩

theorem ends (hs : At true t q s) : Brackets g endOp (fun _ => At false t q) s := by
  refine ⟨hs.inOp, fun x s' hok => ?_⟩
  cases hok
  exact ⟨rfl, hs.tables, hs.pipe⟩

theorem ends_with {a : α} (hs : At true t q s) :
    Brackets g (do endOp; Pure.pure a) (fun _ => At false t q) s :=
  (ends hs).bind fun _ _ h => h

variable {Q : α → SysState → Prop}

theorem asks_pipe {k : Bool → SysProg α} (hs : At b t q s)
    (hk : Brackets g (k (q f)) Q s) : Brackets g (isPipe f >>= k) Q s := by
  refine ⟨trivial, fun x s' hok => ?_⟩
  cases hok
  rw [hs.pipe]
  exact hk

theorem sets_pipe (hs : At b t q s) (f : FileSlot) (x : Bool) :
    Brackets g (setPipe f x) (fun _ => At b t (update q f x)) s := by
  refine ⟨trivial, fun y s' hok => ?_⟩
  cases hok
  exact ⟨hs.inOp, hs.tables, by rw [hs.pipe]⟩

theorem reads_tables {k : Tables → SysProg α} (hs : At b t q s)
    (hk : Brackets g (k t) Q s) : Brackets g (fs tables >>= k) Q s := by
  refine ⟨.inr trivial, fun u s' hok => ?_⟩
  cases hok
  rw [hs.tables]
  exact hk

theorem sets_tables (hs : At b t q s) (u : Tables) :
    Brackets g (fs (setTables u)) (fun _ => At b u q) s := by
  refine ⟨.inr trivial, fun y s' hok => ?_⟩
  cases hok
  exact ⟨hs.inOp, rfl, hs.pipe⟩

theorem elim_const {P : BState → Prop} {r : Option β} {k : BState} (h : r.elim P (fun _ => P) k) :
    P k := by
  cases r with
  | none => exact h
  | some r => exact h

theorem tablesKept (g : Geometry) (t : Tables) : Discipline g fun _ _ k => k.tables = t := by
  have hkept : ∀ {β : Type} {o : Op β}, Keeps β o → Kept g t (.call o) := fun ho =>
    acts_call fun _ _ _ hk hok => (performB_tables ho hok).trans hk
  constructor
  case quiet => exact fun ho => acts_call fun _ _ _ hk hok => (sameSlots_quiet ho hok).1.trans hk
  case start =>
    refine fun {_ _ p _} => acts_ite (hkept trivial) (.bind (hkept trivial) fun u => ?_)
    cases u.cwd p with
    | none => exact acts_fault
    | some ip => exact .bind (hkept trivial) fun _ _ h => h
  all_goals exact hkept trivial

theorem keeps_iunlockput : Kept g t (iunlockput ip) := (tablesKept g t).iunlockput (h := 0) (l := ∅)

theorem keeps_addNlink {x : BitVec 16} : Kept g t (addNlink ip x) := (tablesKept g t).addNlink (h := 0) (l := ∅)

theorem keeps_dirlink {name : Name} {i : ℕ} : Kept g t (dirlink dp name i) :=
  (tablesKept g t).dirlink (h := 0) (l := ∅)

theorem keeps_isdirempty : Kept g t (isdirempty dp) := (tablesKept g t).isdirempty (h := 0) (l := ∅)

theorem keeps_loadElf {mem : ℕ → Bool} : Kept g t (loadElf ip mem) := (tablesKept g t).loadElf (h := 0) (l := ∅)

theorem keeps_dirlookup {name : Name} : Kept g t (dirlookup dp name) :=
  ((tablesKept g t).dirlookup (h := 0) (l := ∅)).mono fun _ _ => elim_const

variable {path : Path}

theorem keeps_namex {parent : Bool} : Kept g t (namex p path parent) :=
  ((tablesKept g t).namex (h := 0)).mono fun _ _ => elim_const

theorem keeps_namei : Kept g t (namei p path) :=
  ((tablesKept g t).namei (h := 0)).mono fun _ _ => elim_const

theorem locked_tables {r : Option ISlot} {k : BState}
    (h : Discipline.Locked (fun _ _ k => k.tables = t) r k) : k.tables = t := by
  cases r with
  | none => exact h
  | some ip =>
    obtain ⟨_, -, h⟩ := h
    exact h

theorem keeps_create {type major minor : BitVec 16} : Kept g t (create p path type major minor) :=
  (tablesKept g t).create.mono fun _ _ => locked_tables

theorem keeps_openInode {omode : BitVec 32} : Kept g t (openInode p path omode) :=
  (tablesKept g t).openInode.mono fun _ _ => locked_tables

theorem inside_op {o : Op β} (hs : At true t q s) (ho : Keeps β o := by trivial) :
    Brackets g (fs (.call o)) (fun _ => At true t q) s :=
  ⟨.inl hs.inOp, fun _ _ hok => performS_inl ho hs hok⟩

theorem sysLinkBad_brackets (hs : At true t q s) :
    Brackets g (sysLinkBad ip) (fun _ => At false t q) s :=
  (inside_op hs).bind fun _ _ h1 => (inside keeps_addNlink h1).bind fun _ _ h2 =>
    (inside keeps_iunlockput h2).bind fun _ _ h3 => ends_with h3

theorem sysLink_brackets (hs : At false t q s) (old new : Path) :
    Brackets g (sysLink p old new) (fun _ => At false t q) s := by
  refine (begins hs).bind fun _ s1 h1 => (inside keeps_namei h1).bind fun r s2 h2 => ?_
  cases r with
  | none => exact ends_with h2
  | some ip =>
    refine (inside_op h2).bind fun _ s3 h3 =>
      (inside_op h3).bind fun d s4 h4 => ?_
    split_ifs
    · exact (inside keeps_iunlockput h4).bind fun _ _ h5 => ends_with h5
    refine (inside keeps_addNlink h4).bind fun _ s5 h5 =>
      (inside_op h5).bind fun _ s6 h6 => (inside keeps_namex h6).bind fun r s7 h7 => ?_
    cases r with
    | none => exact sysLinkBad_brackets h7
    | some r =>
      refine (inside_op h7).bind fun _ s8 h8 => (inside_op h8).bind fun i s9 h9 =>
        (inside keeps_dirlink h9).bind fun x s10 h10 => ?_
      split_ifs
      · exact (inside keeps_iunlockput h10).bind fun _ _ h11 => sysLinkBad_brackets h11
      · exact (inside keeps_iunlockput h10).bind fun _ _ h11 =>
          (inside_op h11).bind fun _ _ h12 => ends_with h12

theorem sysUnlinkBad_brackets (hs : At true t q s) :
    Brackets g (sysUnlinkBad dp) (fun _ => At false t q) s :=
  (inside keeps_iunlockput hs).bind fun _ _ h1 => ends_with h1

theorem sysUnlinkEntry_brackets (hs : At true t q s) (off : ℕ) (isDir : Bool) :
    Brackets g (sysUnlinkEntry dp ip off isDir) (fun _ => At false t q) s := by
  refine (inside_op hs).bind fun r s1 h1 => ?_
  by_cases hr : r ≠ DIRENT
  · rw [if_pos hr]
    trivial
  · have hdir : Kept g t (if isDir then addNlink dp (-1) else Pure.pure () : FsProg Unit) :=
      acts_ite keeps_addNlink fun _ h => h
    rw [if_neg hr]
    exact (inside hdir h1).bind fun _ _ h2 => (inside keeps_iunlockput h2).bind fun _ _ h3 =>
      (inside keeps_addNlink h3).bind fun _ _ h4 =>
        (inside keeps_iunlockput h4).bind fun _ _ h5 => ends_with h5

theorem sysUnlink_brackets (hs : At false t q s) (path : Path) :
    Brackets g (sysUnlink p path) (fun _ => At false t q) s := by
  refine (begins hs).bind fun _ s1 h1 => (inside keeps_namex h1).bind fun r s2 h2 => ?_
  cases r with
  | none => exact ends_with h2
  | some r =>
    refine (inside_op h2).bind fun _ s3 h3 => ?_
    split_ifs
    · exact sysUnlinkBad_brackets h3
    refine (inside keeps_dirlookup h3).bind fun e s4 h4 => ?_
    cases e with
    | none => exact sysUnlinkBad_brackets h4
    | some e =>
      refine (inside_op h4).bind fun _ s5 h5 => (inside_op h5).bind fun d s6 h6 => ?_
      by_cases hn : d.nlink.toInt < 1
      · rw [if_pos hn]
        trivial
      have hempty : Kept g t (if d.type = T_DIR then isdirempty e.1 else Pure.pure true : FsProg Bool) :=
        acts_ite keeps_isdirempty fun _ h => h
      rw [if_neg hn]
      refine (inside hempty h6).bind fun removable s7 h7 => ?_
      split_ifs
      · exact (inside keeps_iunlockput h7).bind fun _ _ h8 => sysUnlinkBad_brackets h8
      · exact sysUnlinkEntry_brackets h7 _ _

theorem created_brackets (hs : At true t q s) (r : Option ISlot) :
    Brackets g (created r) (fun _ => At false t q) s := by
  cases r with
  | none => exact ends_with hs
  | some ip => exact (inside keeps_iunlockput hs).bind fun _ _ h1 => ends_with h1

theorem sysMkdir_brackets (hs : At false t q s) (path : Option Path) :
    Brackets g (sysMkdir p path) (fun _ => At false t q) s := by
  refine (begins hs).bind fun _ s1 h1 => ?_
  cases path with
  | none => exact ends_with h1
  | some path => exact (inside keeps_create h1).bind fun r _ h2 => created_brackets h2 r

theorem sysMknod_brackets (hs : At false t q s) (args : Option (Path × BitVec 16 × BitVec 16)) :
    Brackets g (sysMknod p args) (fun _ => At false t q) s := by
  refine (begins hs).bind fun _ s1 h1 => ?_
  cases args with
  | none => exact ends_with h1
  | some a => exact (inside keeps_create h1).bind fun r _ h2 => created_brackets h2 r

theorem exec_brackets (hs : At false t q s) (path : Path) (mem : ℕ → Bool) :
    Brackets g (exec p path mem) (fun _ => At false t q) s := by
  refine (begins hs).bind fun _ s1 h1 => (inside keeps_namei h1).bind fun r s2 h2 => ?_
  cases r with
  | none => exact ends_with h2
  | some ip =>
    exact (inside_op h2).bind fun _ _ h3 => (inside keeps_loadElf h3).bind fun _ _ h4 =>
      (inside keeps_iunlockput h4).bind fun _ _ h5 => ends_with h5

theorem Tidy.setFile {x : File} {y : Bool} (h : Tidy t q)
    (hx : x.ref = 0 → x.type = .none ∧ y = false) : Tidy (t.setFile f x) (update q f y) := by
  intro f'
  simp only [Tables.setFile, update_apply]
  split_ifs
  · exact hx
  · exact h f'

theorem Tidy.setFile_ref {x : File} (h : Tidy t q) (hx : x.ref ≠ 0) : Tidy (t.setFile f x) q := by
  have hset := h.setFile (f := f) (x := x) (y := q f) fun h0 => absurd h0 hx
  rwa [update_eq_self] at hset

structure Fresh (t : Tables) (q : FileSlot → Bool) (f : FileSlot) : Prop where
  ref : (t.file f).ref ≠ 0
  type : (t.file f).type = .none
  pipe : q f = false

theorem filealloc_brackets (hs : At b t q s) (ht : Tidy t q) :
    Brackets g (fs filealloc) (fun r s' => ∃ u, At b u q s' ∧ Tidy u q ∧
      (∀ f, Fresh t q f → Fresh u q f) ∧ ∀ f, r = some f → Fresh u q f ∧ ¬ Fresh t q f) s := by
  rw [filealloc, fs, inl_bind]
  refine reads_tables hs ?_
  cases hfind : (List.finRange NFILE).find? fun f => decide ((t.file f).ref = 0) with
  | none => exact ⟨t, hs, ht, fun f hf => hf, fun f hf => by cases hf⟩
  | some f =>
    have hfree : (t.file f).ref = 0 := by
      have := List.find?_some hfind
      exact of_decide_eq_true this
    obtain ⟨htype, hpipe⟩ := ht f hfree
    simp only [inl_bind]
    refine (sets_tables hs _).bind fun _ s2 h2 => ?_
    refine ⟨_, h2, ht.setFile_ref one_ne_zero, fun f' hf' => ?_, ?_⟩
    · have hne : f' ≠ f := fun he => hf'.ref (he ▸ hfree)
      exact ⟨by simpa only [Tables.setFile, update_of_ne hne] using hf'.ref,
        by simpa only [Tables.setFile, update_of_ne hne] using hf'.type, hf'.pipe⟩
    · rintro _ ⟨rfl⟩
      refine ⟨⟨?_, ?_, hpipe⟩, fun h => h.ref hfree⟩
      · simp only [Tables.setFile, update_self]
        exact one_ne_zero
      · simpa only [Tables.setFile, update_self] using htype

theorem fdalloc_brackets (hs : At b t q s) (f : FileSlot) :
    Brackets g (fs (fdalloc p f)) (fun _ s' => ∃ u, At b u q s' ∧ u.file = t.file) s := by
  rw [fdalloc, fs, inl_bind]
  refine reads_tables hs ?_
  cases (List.range NOFILE).find? fun fd => decide (t.ofile p fd = none) with
  | none => exact ⟨t, hs, rfl⟩
  | some fd =>
    simp only [inl_bind]
    exact (sets_tables hs _).bind fun _ s2 h2 => ⟨_, h2, rfl⟩

theorem argfd_brackets {fd : ℤ} {k : Option (ℕ × FileSlot) → SysProg α}
    (hs : At b t q s) (hnone : Brackets g (k none) Q s)
    (hsome : ∀ f, 0 ≤ fd → fd < NOFILE → t.ofile p fd.toNat = some f →
      Brackets g (k (some (fd.toNat, f))) Q s) : Brackets g (fs (argfd p fd) >>= k) Q s := by
  rw [argfd, fs, inl_bind, LawfulMonad.bind_assoc]
  refine reads_tables hs ?_
  split_ifs with hfd
  · exact hnone
  · cases hf : t.ofile p fd.toNat with
    | none => exact hnone
    | some f => exact hsome f (by omega) (by omega) hf

theorem fileclose_clear (hs : At b t q s) (ht : Tidy t q) (hb : b = false ∨ Fresh t q f) :
    Brackets g (fileclose f) (fun _ => Clear b) s := by
  refine reads_tables hs ?_
  by_cases href : (t.file f).ref < 1
  · rw [if_pos href]
    trivial
  rw [if_neg href]
  by_cases hmore : 0 < (t.file f).ref - 1
  · rw [if_pos hmore]
    exact (sets_tables hs _).mono fun _ s2 h2 => ⟨_, _, h2, ht.setFile_ref (Nat.ne_of_gt hmore)⟩
  rw [if_neg hmore]
  refine asks_pipe hs ?_
  refine (sets_tables hs _).bind fun _ s3 h3 => (sets_pipe h3 f false).bind fun _ s4 h4 => ?_
  have htidy : Tidy (t.setFile f { t.file f with ref := 0, type := .none }) (update q f false) :=
    ht.setFile fun _ => ⟨rfl, rfl⟩
  split_ifs with _ hinode
  · exact ⟨_, _, h4, htidy⟩
  · rcases hb with rfl | hf
    · exact (begins h4).bind fun _ _ h5 => (inside_op h5).bind fun _ _ h6 =>
        (ends h6).mono fun _ _ h7 => ⟨_, _, h7, htidy⟩
    · rw [hf.type] at hinode
      cases hinode
  · exact ⟨_, _, h4, htidy⟩

theorem fileclose_brackets (hs : At false t q s) (ht : Tidy t q) (f : FileSlot) :
    Brackets g (fileclose f) (fun _ => Idle) s := fileclose_clear hs ht (.inl rfl)

theorem Fresh.congr {u : Tables} (hf : Fresh t q f) (hu : u.file = t.file) : Fresh u q f :=
  ⟨hu ▸ hf.ref, hu ▸ hf.type, hf.pipe⟩

theorem Tidy.congr {u : Tables} (ht : Tidy t q) (hu : u.file = t.file) : Tidy u q := by
  intro f
  rw [hu]
  exact ht f

theorem sysOpen_brackets (hs : At false t q s) (ht : Tidy t q) (path : Path) (omode : BitVec 32) :
    Brackets g (sysOpen p path omode) (fun _ => Idle) s := by
  refine (begins hs).bind fun _ s1 h1 => (inside keeps_openInode h1).bind fun r s2 h2 => ?_
  cases r with
  | none => exact (ends_with h2).mono fun _ _ h => ⟨t, q, h, ht⟩
  | some ip =>
    refine (filealloc_brackets h2 ht).bind ?_
    rintro r s3 ⟨u, h3, hu, -, hf⟩
    cases r with
    | none =>
      exact (inside keeps_iunlockput h3).bind fun _ _ h4 => (ends_with h4).mono fun _ _ h => ⟨u, q, h, hu⟩
    | some f =>
      have hfresh := (hf f rfl).1
      refine (fdalloc_brackets h3 f).bind ?_
      rintro r s4 ⟨v, h4, hv⟩
      cases r with
      | none =>
        -- The file has no type yet, so closing it begins no transaction.
        refine (fileclose_clear h4 (hu.congr hv) (.inr (hfresh.congr hv))).bind ?_
        rintro _ s5 ⟨w, q', h5, hw⟩
        exact (inside keeps_iunlockput h5).bind fun _ _ h6 =>
          (ends_with h6).mono fun _ _ h => ⟨w, q', h, hw⟩
      | some fd =>
        refine (inside_op h4).bind fun _ s5 h5 => (ends h5).bind fun _ s6 h6 => reads_tables h6 ?_
        refine (sets_tables h6 _).bind fun _ s7 h7 => (sets_pipe h7 f false).bind fun _ s8 h8 => ?_
        exact ⟨_, _, h8, (hu.congr hv).setFile fun h0 => absurd h0 (hfresh.congr hv).ref⟩

theorem sysClose_brackets (hs : At false t q s) (ht : Tidy t q) (fd : ℤ) :
    Brackets g (sysClose p fd) (fun _ => Idle) s := by
  refine argfd_brackets hs ⟨t, q, hs, ht⟩ fun f _ _ _ => ?_
  refine reads_tables hs ((sets_tables hs _).bind fun _ s1 h1 => ?_)
  exact (fileclose_brackets h1 (ht.congr rfl) f).bind fun _ _ h2 => h2

theorem advance_brackets (hs : At b t q s) (ht : Tidy t q) (f : FileSlot) (r : ℤ) :
    Brackets g (fs (advance f r)) (fun _ => Clear b) s := by
  rw [advance, fs, inl_bind]
  refine reads_tables hs ?_
  split_ifs
  · refine (sets_tables hs _).mono fun _ _ h => ⟨_, _, h, fun f' => ?_⟩
    simp only [Tables.setFile, update_apply]
    split_ifs with hf
    · rw [hf]
      exact ht f
    · exact ht f'
  · exact ⟨t, q, hs, ht⟩

theorem fileread_brackets (hs : At false t q s) (ht : Tidy t q) (n : ℕ) (io : ℤ)
    (hmap : (t.file f).readable = true → (t.file f).type = .inode →
      Blocks.ReadMapped g s.kernel (t.file f).ip (t.file f).off n) :
    Brackets g (fileread f n io) (fun _ => Idle) s := by
  refine reads_tables hs ?_
  split_ifs with hread
  · exact ⟨t, q, hs, ht⟩
  refine asks_pipe hs ?_
  split_ifs
  · exact ⟨t, q, hs, ht⟩
  cases htype : (t.file f).type with
  | none => trivial
  | inode =>
    refine (safe_bind _ _ _).mpr ⟨.inr trivial, fun _ s1 hok => ?_⟩
    have h1 := performS_inl (by trivial) hs hok
    have hlock : Blocks.ilock g (t.file f).ip s.kernel = .ok ((), s1.kernel) := by
      simp only [performS, performB] at hok
      split at hok
      next hb =>
        cases hok
        exact hb
      · cases hok
    obtain ⟨hdin, haddrs, hdisk⟩ := Blocks.ilock_loaded hlock
    refine reads_tables h1 ?_
    have hquiet : ∃ r, Logged.readi g (t.file f).ip (t.file f).off n s1.kernel = .ok (r, []) := by
      apply Logged.readi_mapped
      rw [hdin, haddrs, hdisk]
      exact fun hdev j h1 h2 => hmap (eq_true_of_ne_false hread) htype hdev j h2 h1
    refine (outside (by trivial) h1 (by exact hquiet)).bind fun r s2 h2 => (advance_brackets h2 ht f _).bind ?_
    rintro _ s3 ⟨u, q', h3, hu⟩
    exact (outside (by trivial) h3 (by trivial)).bind fun _ _ h4 => ⟨u, q', h4, hu⟩

theorem filewriteLoop_brackets (hs : At false t q s) (ht : Tidy t q) (f : FileSlot) (fuel : ℕ)
    (src : List Byte) : Brackets g (filewriteLoop f fuel src) (fun _ => Idle) s := by
  induction fuel generalizing t q s src with
  | zero => exact ⟨t, q, hs, ht⟩
  | succ fuel ih =>
    rw [filewriteLoop]
    split_ifs
    · exact ⟨t, q, hs, ht⟩
    refine reads_tables hs ((begins hs).bind fun _ s1 h1 => (inside_op h1).bind fun _ s2 h2 =>
      reads_tables h2 ((inside_op h2).bind fun r s3 h3 => (advance_brackets h3 ht f r).bind ?_))
    rintro _ s4 ⟨u, q', h4, hu⟩
    refine (inside_op h4).bind fun _ s5 h5 => (ends h5).bind fun _ s6 h6 => ?_
    split_ifs
    · exact ⟨u, q', h6, hu⟩
    · trivial
    · exact ih h6 hu _

theorem filewrite_brackets (hs : At false t q s) (ht : Tidy t q) (src : List Byte) (io : ℤ) :
    Brackets g (filewrite f src io) (fun _ => Idle) s := by
  refine reads_tables hs ?_
  split_ifs
  · exact ⟨t, q, hs, ht⟩
  refine asks_pipe hs ?_
  split_ifs
  · exact ⟨t, q, hs, ht⟩
  cases (t.file f).type with
  | none => trivial
  | inode => exact (filewriteLoop_brackets hs ht f _ src).bind fun _ _ h => h

theorem connect_brackets (hs : At b t q s) (ht : Tidy t q) (href : (t.file f).ref ≠ 0) (w : Bool) :
    Brackets g (connect f w) (fun _ s' => ∃ u v, At b u v s' ∧ Tidy u v ∧
      ∀ f', (t.file f').ref ≠ 0 → (u.file f').ref ≠ 0) s := by
  refine reads_tables hs ((sets_tables hs _).bind fun _ s1 h1 => (sets_pipe h1 f true).mono fun _ s2 h2 => ?_)
  refine ⟨_, _, h2, ht.setFile fun h0 => absurd h0 href, fun f' hf' => ?_⟩
  simp only [Tables.setFile, update_apply]
  split_ifs with hf
  · exact href
  · exact hf'

theorem pipealloc_brackets (hs : At false t q s) (ht : Tidy t q) (memory : Bool) :
    Brackets g (pipealloc memory) (fun _ => Idle) s := by
  refine (filealloc_brackets hs ht).bind ?_
  rintro r s1 ⟨u, h1, hu, -, hf0⟩
  cases r with
  | none => exact ⟨u, q, h1, hu⟩
  | some f0 =>
    refine (filealloc_brackets h1 hu).bind ?_
    rintro r s2 ⟨v, h2, hv, hkeep, hf1⟩
    cases r with
    | none => exact (fileclose_brackets h2 hv f0).bind fun _ _ h3 => h3
    | some f1 =>
      have hf0' := hkeep f0 (hf0 f0 rfl).1
      dsimp only
      split_ifs
      · refine (fileclose_brackets h2 hv f0).bind ?_
        rintro _ s3 ⟨w, q', h3, hw⟩
        exact (fileclose_brackets h3 hw f1).bind fun _ _ h4 => h4
      · refine (connect_brackets h2 hv hf0'.ref false).bind ?_
        rintro _ s3 ⟨w, q', h3, hw, href⟩
        refine (connect_brackets h3 hw (href f1 (hf1 f1 rfl).1.ref) true).bind ?_
        rintro _ s4 ⟨x, q'', h4, hx, -⟩
        exact ⟨x, q'', h4, hx⟩

theorem sysPipe_brackets (hs : At false t q s) (ht : Tidy t q) (memory : Bool) :
    Brackets g (sysPipe p memory) (fun _ => Idle) s := by
  have hclose : ∀ (rf wf : FileSlot) {u v s'}, At false u v s' → Tidy u v →
      Brackets g (do fileclose rf; fileclose wf; Pure.pure (-1) : SysProg ℤ) (fun _ => Idle) s' := by
    intro rf wf u v s' h hu
    refine (fileclose_brackets h hu rf).bind ?_
    rintro _ s2 ⟨w, q', h2, hw⟩
    exact (fileclose_brackets h2 hw wf).bind fun _ _ h3 => h3
  refine (pipealloc_brackets hs ht memory).bind ?_
  rintro r s1 ⟨u, q', h1, hu⟩
  cases r with
  | none => exact ⟨u, q', h1, hu⟩
  | some r =>
    refine (fdalloc_brackets h1 r.1).bind ?_
    rintro x s2 ⟨v, h2, hv⟩
    cases x with
    | none => exact hclose _ _ h2 (hu.congr hv)
    | some fd0 =>
      refine (fdalloc_brackets h2 r.2).bind ?_
      rintro x s3 ⟨w, h3, hw⟩
      cases x with
      | none =>
        refine reads_tables h3 ((sets_tables h3 _).bind fun _ s4 h4 => ?_)
        exact hclose _ _ h4 (((hu.congr hv).congr hw).congr rfl)
      | some fd1 => exact ⟨w, q', h3, (hu.congr hv).congr hw⟩

theorem sysChdir_brackets (hs : At false t q s) (ht : Tidy t q) (path : Option Path) :
    Brackets g (sysChdir p path) (fun _ => Idle) s := by
  refine (begins hs).bind fun _ s1 h1 => ?_
  cases path with
  | none => exact (ends_with h1).mono fun _ _ h => ⟨t, q, h, ht⟩
  | some path =>
    refine (inside keeps_namei h1).bind fun r s2 h2 => ?_
    cases r with
    | none => exact (ends_with h2).mono fun _ _ h => ⟨t, q, h, ht⟩
    | some ip =>
      refine (inside_op h2).bind fun _ s3 h3 => (inside_op h3).bind fun d s4 h4 => ?_
      split_ifs
      · exact (inside keeps_iunlockput h4).bind fun _ _ h5 =>
          (ends_with h5).mono fun _ _ h => ⟨t, q, h, ht⟩
      refine (inside_op h4).bind fun _ s5 h5 =>
        reads_tables h5 ((sets_tables h5 _).bind fun _ s6 h6 => ?_)
      cases t.cwd p with
      | none => trivial
      | some old =>
        exact (inside_op h6).bind fun _ _ h7 =>
          (ends_with h7).mono fun _ _ h => ⟨_, q, h, ht.congr rfl⟩

theorem exitFiles_brackets (hs : Idle s) (fds : List ℕ) :
    Brackets g (exitFiles p fds) (fun _ => Idle) s := by
  induction fds generalizing s with
  | nil => exact hs
  | cons fd fds ih =>
    obtain ⟨t, q, h, ht⟩ := hs
    have hfile : Brackets g (exitFile p fd) (fun _ => Idle) s := by
      refine reads_tables h ?_
      cases t.ofile p fd with
      | none => exact ⟨t, q, h, ht⟩
      | some f =>
        refine (fileclose_brackets h ht f).bind ?_
        rintro _ s1 ⟨u, q', h1, hu⟩
        exact reads_tables h1 ((sets_tables h1 _).mono fun _ _ h2 => ⟨_, q', h2, hu.congr rfl⟩)
    exact hfile.bind fun _ _ h1 => ih h1

theorem exit_brackets (hs : Idle s) : Brackets g (exit p) (fun _ => Idle) s := by
  refine (exitFiles_brackets hs _).bind ?_
  rintro _ s1 ⟨t, q, h1, ht⟩
  refine (begins h1).bind fun _ s2 h2 => reads_tables h2 ((sets_tables h2 _).bind fun _ s3 h3 => ?_)
  cases t.cwd p with
  | none => trivial
  | some ip =>
    exact (inside_op h3).bind fun _ _ h4 =>
      (ends_with h4).mono fun _ _ h => ⟨_, q, h, ht.congr rfl⟩

theorem filedup_brackets (hs : At b t q s) (ht : Tidy t q) (f : FileSlot) :
    Brackets g (fs (filedup f)) (fun _ => Clear b) s := by
  rw [filedup, fs, inl_bind]
  refine reads_tables hs ?_
  split_ifs
  · trivial
  · exact (sets_tables hs _).mono fun _ _ h => ⟨_, _, h, ht.setFile_ref (Nat.succ_ne_zero _)⟩

section

variable (hs : At false t q s) (ht : Tidy t q)
include hs ht

theorem sysDup_brackets (fd : ℤ) :
    Brackets g (fs (sysDup p fd)) (fun _ => Idle) s := by
  rw [sysDup, fs, inl_bind]
  refine argfd_brackets hs ⟨t, q, hs, ht⟩ fun f _ _ _ => ?_
  simp only [inl_bind]
  refine (fdalloc_brackets hs f).bind ?_
  rintro x s1 ⟨u, h1, hu⟩
  cases x with
  | none => exact ⟨u, q, h1, ht.congr hu⟩
  | some fd' =>
    simp only [inl_bind]
    exact (filedup_brackets h1 (ht.congr hu) f).bind fun _ _ h2 => h2

theorem sysFstat_brackets (fd : ℤ) :
    Brackets g (fs (sysFstat p fd)) (fun _ => Idle) s := by
  rw [sysFstat, fs, inl_bind]
  refine argfd_brackets hs ⟨t, q, hs, ht⟩ fun f _ _ _ => ?_
  have hstat : Brackets g (fs (filestat f)) (fun _ => At false t q) s := by
    rw [filestat, fs, inl_bind]
    refine reads_tables hs ?_
    split_ifs
    · simp only [inl_bind]
      exact (outside (by trivial) hs (by trivial)).bind fun _ _ h1 =>
        (outside (by trivial) h1 (by trivial)).bind fun _ _ h2 =>
          (outside (by trivial) h2 (by trivial)).bind fun _ _ h3 => h3
    · exact hs
  simp only [inl_bind]
  refine hstat.bind fun x s1 h1 => ?_
  cases x with
  | none | some d => exact ⟨t, q, h1, ht⟩

theorem forkFiles_brackets (child : Pid) (fds : List ℕ) :
    Brackets g (fs (forkFiles p child fds)) (fun _ => Idle) s := by
  induction fds generalizing t q s with
  | nil => exact ⟨t, q, hs, ht⟩
  | cons fd fds ih =>
    have hfile : Brackets g (fs (forkFile p child fd)) (fun _ => Idle) s := by
      rw [forkFile, fs, inl_bind]
      refine reads_tables hs ?_
      cases t.ofile p fd with
      | none => exact ⟨t, q, hs, ht⟩
      | some f =>
        simp only [inl_bind]
        refine (filedup_brackets hs ht f).bind ?_
        rintro _ s1 ⟨u, q', h1, hu⟩
        exact reads_tables h1 ((sets_tables h1 _).mono fun _ _ h2 => ⟨_, _, h2, hu.congr rfl⟩)
    rw [forkFiles, fs, inl_bind]
    refine hfile.bind ?_
    rintro _ s1 ⟨u, q', h1, hu⟩
    exact ih h1 hu

theorem fork_brackets (child : Pid) :
    Brackets g (fs (fork p child)) (fun _ => Idle) s := by
  rw [fork, fs, inl_bind]
  refine (forkFiles_brackets hs ht child _).bind ?_
  rintro _ s1 ⟨u, q', h1, hu⟩
  simp only [inl_bind]
  refine reads_tables h1 ?_
  cases u.cwd p with
  | none => trivial
  | some ip =>
    simp only [inl_bind]
    exact (outside (by trivial) h1 (by trivial)).bind fun _ _ h2 =>
      (sets_tables h2 _).bind fun _ _ h3 => ⟨_, q', h3, hu.congr rfl⟩

end

theorem fetched_brackets {k : α → SysProg ℤ} (hs : Idle s) (args : Option α)
    (hk : ∀ a, args = some a → Brackets g (k a) (fun _ => Idle) s) :
    Brackets g (fetched k args) (fun _ => Idle) s := by
  cases args with
  | none => exact hs
  | some a => exact hk a rfl

theorem prog_brackets (hs : Idle s) (call : SysCall) (hmap : call.ReadsMapped g s p) :
    Brackets g (call.prog p) (fun _ => Idle) s := by
  have hidle := hs
  obtain ⟨t, q, h, ht⟩ := hs
  have hback : ∀ {c : SysProg ℤ}, Brackets g c (fun _ => At false t q) s → Brackets g c (fun _ => Idle) s :=
    fun hc => hc.mono fun _ _ h' => ⟨t, q, h', ht⟩
  cases call with
  | «open» args => exact fetched_brackets hidle args fun a _ => sysOpen_brackets h ht a.1 a.2
  | close fd => exact fetched_brackets hidle fd fun fd _ => sysClose_brackets h ht fd
  | read args io =>
    refine fetched_brackets hidle args fun a ha => argfd_brackets h hidle fun f h0 hlt hf => ?_
    subst ha
    refine fileread_brackets h ht a.2 io ?_
    rw [← h.tables] at hf ⊢
    exact hmap f h0 hlt hf
  | write args io =>
    exact fetched_brackets hidle args fun a _ => argfd_brackets h hidle fun f _ _ _ =>
      filewrite_brackets h ht a.2 io
  | fstat fd => exact fetched_brackets hidle fd fun fd _ => sysFstat_brackets h ht fd
  | dup fd => exact fetched_brackets hidle fd fun fd _ => sysDup_brackets h ht fd
  | pipe arg memory => exact fetched_brackets hidle arg fun _ _ => sysPipe_brackets h ht memory
  | mkdir path => exact hback (sysMkdir_brackets h path)
  | mknod args => exact hback (sysMknod_brackets h args)
  | link args => exact fetched_brackets hidle args fun a _ => hback (sysLink_brackets h a.1 a.2)
  | unlink path => exact fetched_brackets hidle path fun path _ => hback (sysUnlink_brackets h path)
  | chdir path => exact sysChdir_brackets h ht path
  | exec path mem => exact fetched_brackets hidle path fun path _ => hback (exec_brackets h path mem)
  | fork child => exact fetched_brackets hidle child fun child _ => fork_brackets h ht child
  | exit => exact exit_brackets hidle

theorem idle_boot (d : Disk) : Idle (bootS d) :=
  ⟨_, _, ⟨rfl, rfl, rfl⟩, fun _ _ => ⟨rfl, rfl⟩⟩

theorem idle_step {s' : SysState} {e : Pid × SysCall} (hs : Idle s) (hmap : e.2.ReadsMapped g s e.1)
    (hstep : stepS g s e = some s') : Idle s' := by
  unfold stepS at hstep
  split_ifs at hstep
  split at hstep
  next hrun =>
    cases hstep
    exact (prog_brackets hs e.2 hmap).run_ok hrun
  · cases hstep

end Transactions

open Transactions

theorem transactions_bracket_updates {g : Geometry} {d : Disk} {evs : List (Pid × SysCall)} {s : SysState}
    (hrun : Runs.exec (stepS g) (bootS d) evs = some s)
    (hmeets : Meets (stepS g) (fun s e => e.2.ReadsMapped g s e.1) (bootS d) evs)
    (p : Pid) (call : SysCall) (hmap : call.ReadsMapped g s p) :
    (∀ s', Visits (performS g) (.inr .beginOp : SysOp Unit) s' (call.prog p) s → s'.inOp = false) ∧
    (∀ s', Visits (performS g) (.inr .endOp : SysOp Unit) s' (call.prog p) s → s'.inOp = true) ∧
    (∀ ip s', Visits (performS g) (.inl (.iput ip) : SysOp Unit) s' (call.prog p) s → s'.inOp = true) ∧
    (∀ (β : Type) (o : Op β) s', Visits (performS g) (.inl o : SysOp β) s' (call.prog p) s →
      ¬ Unlogged g β o s'.kernel → s'.inOp = true) ∧
    s.inOp = false ∧ ∀ r s', (call.prog p).run (performS g) s = .ok (r, s') → s'.inOp = false := by
  have hidle : Idle s := exec_preserves (stepS g) (fun _ _ _ => idle_step) (idle_boot d) hmeets hrun
  have hsafe := prog_brackets hidle call hmap
  have houtside : ∀ {s'}, Idle s' → s'.inOp = false := fun ⟨_, _, h, _⟩ => h.inOp
  refine ⟨fun s' hv => hsafe.visits hv, fun s' hv => hsafe.visits hv, fun ip s' hv => ?_,
    fun β o s' hv hlog => ?_, houtside hidle, fun r s' hr => houtside (hsafe.run_ok hr)⟩
  · exact (hsafe.visits hv).resolve_right id
  · exact (hsafe.visits hv).resolve_right hlog

def rootRun : List (Pid × SysCall) := [(0, .open (some ([slash], O_RDONLY)))]

structure RootOpened (g : Geometry) (d : Disk) (s : SysState) : Prop where
  inOp : s.inOp = false
  pipe : s.pipe 0 = false
  ofile : s.kernel.tables.ofile 0 0 = some 0
  file : s.kernel.tables.file 0 = ⟨.inode, 1, true, false, 0, 0⟩
  cache : s.kernel.cache 0 = ⟨ROOTINO, 2, true, false, Blocks.readDinode g d ROOTINO⟩
  addrs : s.kernel.vol.addrs 0 = Blocks.readAddrs g d ROOTINO
  disk : s.kernel.vol.disk = d

theorem openInode_root {g : Geometry} {d : Disk} (htype : (Blocks.readDinode g d ROOTINO).type = T_DIR) :
    (openInode 0 [slash] O_RDONLY).run (performB g) (bootB d) = .ok (some 0, Mkfs.rootLocked g d) := by
  have hnamei : (namei 0 [slash]).run (performB g) (bootB d) = .ok (some 0, Mkfs.rootHeld d) := rfl
  have hdinode : performB g _ (.dinode 0) (Mkfs.rootLocked g d) =
      .ok (Blocks.readDinode g d ROOTINO, Mkfs.rootLocked g d) := rfl
  rw [openInode, if_neg (by decide), run_bind, hnamei]
  dsimp only
  rw [Fs.ilock, run_call (Mkfs.ilock_root htype), dinode, run_call hdinode, if_neg fun h => h.2 rfl]
  rfl

theorem rootRun_opens {g : Geometry} {d : Disk} (htype : (Blocks.readDinode g d ROOTINO).type = T_DIR) :
    ∃ s, Runs.exec (stepS g) (bootS d) rootRun = some s ∧ RootOpened g d s := by
  have hrun : ∃ r s, ((SysCall.open (some ([slash], O_RDONLY))).prog 0).run (performS g) (bootS d) =
      .ok (r, s) ∧ RootOpened g d s := by
    change ∃ r s, (Transactions.sysOpen 0 [slash] O_RDONLY).run (performS g) (bootS d) = .ok (r, s) ∧ _
    have hbegin : performS g _ (.inr .beginOp) (bootS d) = .ok ((), { bootS d with inOp := true }) := rfl
    have hopen : (fs (openInode 0 [slash] O_RDONLY)).run (performS g) { bootS d with inOp := true } =
        .ok (some 0, ⟨Mkfs.rootLocked g d, fun _ => false, true⟩) := by
      rw [run_fs]
      simp only [bootS, openInode_root htype]
    rw [Transactions.sysOpen, beginOp, run_call hbegin, run_bind, hopen]
    exact ⟨_, _, rfl, ⟨rfl, rfl, rfl, rfl, rfl, rfl, rfl⟩⟩
  obtain ⟨r, s, hr, hs⟩ := hrun
  refine ⟨s, ?_, hs⟩
  have hen : (SysCall.open (some ([slash], O_RDONLY))).enabled (bootS d).kernel.tables 0 = true := rfl
  rw [rootRun, Runs.exec, stepS, if_pos hen, hr]
  rfl

theorem RootOpened.visits {g : Geometry} {d : Disk} {s : SysState} (h : RootOpened g d s) (n : ℕ) :
    ∃ s', Visits (performS g) (.inl (.readi 0 0 n) : SysOp _) s' ((SysCall.read (some (0, n)) 0).prog 0) s ∧
      s'.inOp = false ∧ (s'.kernel.cache 0).din = Blocks.readDinode g d ROOTINO ∧
      s'.kernel.vol.addrs 0 = Blocks.readAddrs g d ROOTINO ∧ s'.kernel.vol.disk = d := by
  have hfd : (fs (argfd 0 0)).run (performS g) s = .ok (some (0, 0), s) := by
    change Except.ok ((s.kernel.tables.ofile 0 0).map fun f => (0, f), s) = _
    rw [h.ofile]
    rfl
  have htables : (fs tables).run (performS g) s = .ok (s.kernel.tables, s) := rfl
  have hpipe : (isPipe 0).run (performS g) s = .ok (false, s) := by
    change Except.ok (s.pipe 0, s) = _
    rw [h.pipe]
  obtain ⟨k, hk, htab⟩ : ∃ k, Blocks.ilock g 0 s.kernel = .ok ((), k) ∧ k.tables = s.kernel.tables := by
    simp only [Blocks.ilock, h.cache]
    exact ⟨_, rfl, rfl⟩
  have hlock : (fs (ilock 0)).run (performS g) s = .ok ((), { s with kernel := k }) := by
    simp only [fs, ilock, call, inl, run, performS, performB, hk]
  obtain ⟨hdin, haddrs, hdisk⟩ := Blocks.ilock_loaded hk
  simp only [Blocks.loaded, h.cache, if_true] at hdin haddrs
  refine ⟨{ s with kernel := k }, ?_, h.inOp, hdin, haddrs.trans h.addrs, hdisk.trans h.disk⟩
  refine visits_bind hfd (visits_bind htables ?_)
  rw [if_neg (by rw [h.file]; decide)]
  refine visits_bind hpipe ?_
  rw [if_neg Bool.false_ne_true, h.file]
  refine visits_bind hlock (visits_bind (a := k.tables) rfl ?_)
  rw [htab, h.file]
  exact .here _

theorem transactions_bracket_updates_rootRun :
    ∃ s, Runs.exec (stepS xv6Geometry) (bootS mkfsDisk) rootRun = some s ∧
      (SysCall.read (some (0, 16)) 0).ReadsMapped xv6Geometry s 0 ∧
      (∃ s', Visits (performS xv6Geometry) (.inl (.readi 0 0 16) : SysOp _) s'
        ((SysCall.read (some (0, 16)) 0).prog 0) s ∧ s'.inOp = false) ∧
      ∀ r s', ((SysCall.read (some (0, 16)) 0).prog 0).run (performS xv6Geometry) s = .ok (r, s') →
        s'.inOp = false := by
  have hdinode := mkfsDisk_dinode ROOTINO (by decide)
  obtain ⟨s, hs, hroot⟩ := rootRun_opens (g := xv6Geometry) (d := mkfsDisk) (by rw [hdinode]; decide)
  have hmap : (SysCall.read (some (0, 16)) 0).ReadsMapped xv6Geometry s 0 := by
    intro f _ _ hf _ _
    have hf0 : f = 0 := Option.some.inj (hf.symm.trans hroot.ofile)
    rw [hf0, hroot.file]
    intro _ j hj _ _
    have hlt : j < BSIZE := Nat.lt_of_lt_of_le hj (by decide)
    simp only [Blocks.loaded, hroot.cache, if_true, hroot.addrs, hroot.disk, Blocks.HasBlock,
      Nat.div_eq_of_lt hlt]
    exact ⟨Nat.lt_of_lt_of_le hlt (by decide), by decide +kernel⟩
  obtain ⟨s', hv, hin, -⟩ := hroot.visits 16
  exact ⟨s, hs, hmap, ⟨s', hv, hin⟩,
    (transactions_bracket_updates hs ⟨trivial, fun _ _ => trivial⟩ 0 _ hmap).2.2.2.2.2⟩

theorem Logged.readi_hole {g : Geometry} {ip : ISlot} {k : BState}
    (hdin : (k.cache ip).din = ⟨T_DIR, 0, 0, 1, 2 * BSIZE⟩)
    (hfirst : Blocks.HasBlock (k.vol.addrs ip) k.vol.disk 0)
    (hhole : Blocks.blockOf (k.vol.addrs ip) k.vol.disk (place 1) = 0) {b : ℕ} {d' : Disk}
    (hfree : Blocks.balloc g k.vol.disk = .ok (b, d')) :
    ∃ r log, Logged.readi g ip 0 1024 k = .ok (r, log) ∧ log ≠ [] := by
  have hzero : k.vol.addrs ip ⟨1, by decide⟩ = 0 := by
    rw [Blocks.place_direct (by decide)] at hhole
    exact BitVec.eq_of_toNat_eq hhole
  have hbmap0 := Logged.bmap_mapped (g := g) (show 0 < MAXFILE by decide) hfirst
  have hbmap1 : Logged.bmap g 1 (k.vol.addrs ip) k.vol.disk =
      .ok (((BitVec.ofNat 32 b).toNat, update (k.vol.addrs ip) ⟨1, by decide⟩ (BitVec.ofNat 32 b), d'),
        [g.bblock b, b]) := by
    rw [Logged.bmap, dif_pos (by decide), hzero, Logged.ensure, if_pos rfl, Logged.balloc, hfree]
  simp only [Logged.readi, hdin]
  rw [if_neg (by decide), if_neg (by decide)]
  have hmin : min 1024 (2 * BSIZE - 0) = 1022 + 1 + 1 := rfl
  rw [hmin, Logged.readLoop, if_neg (by decide), Nat.zero_div, hbmap0]
  dsimp only
  have hm : min (1022 + 1 + 1) (BSIZE - 0 % BSIZE) = 512 := rfl
  rw [hm, Logged.readLoop, if_neg (by decide)]
  have hdiv : (0 + 512) / BSIZE = 1 := rfl
  rw [hdiv, hbmap1]
  dsimp only
  have hm' : min (1022 + 1 + 1 - 512) (BSIZE - (0 + 512) % BSIZE) = 512 := rfl
  rw [hm', Logged.readLoop, if_pos rfl]
  exact ⟨_, _, rfl, by simp⟩

theorem read_of_hole_logs_outside :
    ∃ m, Mkfs.main (some true) (List.replicate 30 Mkfs.emptyFile) = .ok m ∧
      ∃ s, Runs.exec (stepS ((Mkfs.readsb (m.disk 1)).geometry fun _ => none)) (bootS m.disk) rootRun = some s ∧
        ∃ s', Visits (performS ((Mkfs.readsb (m.disk 1)).geometry fun _ => none))
          (.inl (.readi 0 0 1024) : SysOp _) s' ((SysCall.read (some (0, 1024)) 0).prog 0) s ∧
          s'.inOp = false ∧
          ∃ r log, Logged.readi ((Mkfs.readsb (m.disk 1)).geometry fun _ => none) 0 0 1024 s'.kernel =
            .ok (r, log) ∧ log ≠ [] ∧
            Blocks.readi ((Mkfs.readsb (m.disk 1)).geometry fun _ => none) 0 0 1024 s'.kernel = .ok r := by
  obtain ⟨m, hm, m₀, h⟩ := Mkfs.main_emptyFiles (n := 30) (by decide)
  obtain ⟨hdinode, hfirst, hhole⟩ := h.thirty
  refine ⟨m, hm, ?_⟩
  rw [h.super_eq, Mkfs.readsb_encode]
  -- The block after the last one of the files is free.
  have hfree : ∃ b d', Blocks.balloc (Mkfs.sb.geometry fun _ => none) m.disk = .ok (b, d') := by
    have hcount := h.image.count
    have hneed : Mkfs.need (DIRENT * (30 + 2)) = 1 := by decide
    rw [Mkfs.needs_emptyFiles, hneed, Mkfs.nmeta_eq] at hcount
    refine Blocks.balloc_of_free (b := m₀.freeblock) (Nat.lt_of_le_of_lt hcount (by decide)) ?_
    change Blocks.inUse Mkfs.geo m.disk m₀.freeblock = false
    rw [h.written.bits Mkfs.geo_ok (by decide), Mkfs.inUse_kernelDisk h.image.space
      (Nat.lt_of_le_of_lt hcount (by decide)), decide_eq_false (lt_irrefl _)]
  obtain ⟨b, d', hballoc⟩ := hfree
  generalize hg : (Mkfs.sb.geometry fun _ => none) = g at hballoc ⊢
  have hdin : Blocks.readDinode g m.disk ROOTINO = ⟨T_DIR, 0, 0, 1, 2 * BSIZE⟩ := hg ▸ hdinode
  obtain ⟨s, hs, hroot⟩ := rootRun_opens (g := g) (d := m.disk) (by rw [hdin])
  obtain ⟨s', hv, hin, hdin', haddrs, hdisk⟩ := hroot.visits 1024
  have hfirst' : Blocks.HasBlock (s'.kernel.vol.addrs 0) s'.kernel.vol.disk 0 := by
    rw [haddrs, hdisk]
    exact hg ▸ hfirst
  obtain ⟨r, log, hread, hlog⟩ := Logged.readi_hole (hdin'.trans hdin) hfirst' (by
    rw [haddrs, hdisk]
    exact hg ▸ hhole) (hdisk ▸ hballoc)
  exact ⟨s, hs, s', hv, hin, r, log, hread, hlog, by rw [← Logged.readi_value, hread]; rfl⟩

end Xv6.Fs
