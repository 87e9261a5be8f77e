import Xv6.Lib.Counting
import Xv6.Fs.Effects

/-!
# Open files, current directories and processes

The calls that move references between the inode cache and the tables. `wp_call` says
for every call that it keeps the contract and what it does to the volume.
-/

namespace Xv6.Fs

open Lib Lib.Prog Relation
open Triple (seq assume)

namespace Tables

theorem refs_setCwd (t : Tables) (p : Pid) (x : Option ISlot) (ip : ISlot) :
    (t.setCwd p x).refs ip + (if t.cwd p = some ip then 1 else 0) =
      t.refs ip + (if x = some ip then 1 else 0) := by
  have h := card_filter_change (fun q => t.cwd q = some ip)
    (fun q => (t.setCwd p x).cwd q = some ip) (Finset.mem_univ p)
    (fun q _ hq => by simp [setCwd, hq])
  have hp : (t.setCwd p x).cwd p = x := by simp [setCwd]
  rw [hp] at h
  change _ + (Finset.univ.filter fun f => (t.file f).type = .inode ∧ (t.file f).ip = ip).card + _ = _
  unfold refs
  omega

theorem refs_setFile (t : Tables) (f : FileSlot) (x : File) (ip : ISlot) :
    (t.setFile f x).refs ip + (if (t.file f).type = .inode ∧ (t.file f).ip = ip then 1 else 0) =
      t.refs ip + (if x.type = .inode ∧ x.ip = ip then 1 else 0) := by
  have h := card_filter_change (fun g => (t.file g).type = .inode ∧ (t.file g).ip = ip)
    (fun g => ((t.setFile f x).file g).type = .inode ∧ ((t.setFile f x).file g).ip = ip)
    (Finset.mem_univ f) (fun g _ hg => by simp [setFile, hg])
  have hf : (t.setFile f x).file f = x := by simp [setFile]
  rw [hf] at h
  change (Finset.univ.filter fun q => t.cwd q = some ip).card + _ + _ = _
  unfold refs
  omega

theorem refs_setFile_same (t : Tables) {f : FileSlot} {x : File} (hty : x.type = (t.file f).type)
    (hip : x.ip = (t.file f).ip) (ip : ISlot) : (t.setFile f x).refs ip = t.refs ip := by
  have h := t.refs_setFile f x ip
  rw [hty, hip] at h
  omega

theorem setFile_file (t : Tables) (f : FileSlot) (x : File) (g : FileSlot) :
    (t.setFile f x).file g = if g = f then x else t.file g := by
  simp [setFile, Function.update_apply]

end Tables

variable {c : Conf} {E : Fault → Prop} [Tolerant E] {num : ISlot → ℕ} {held : Refs} {locks : Finset ISlot}
variable {v : Volume} {t : Tables} {s : State} {p : Pid} {path : Path} {f : FileSlot} {x : File} {ip : ISlot} {i : ℕ}

theorem Good.setFile (g : Good c num held locks s)
    (hty : x.type = (s.tables.file f).type) (hip : x.ip = (s.tables.file f).ip)
    (hw : x.writable = (s.tables.file f).writable) (hclosed : x.ref = 0 → x.type = .none) :
    Good c num held locks { s with tables := s.tables.setFile f x } := by
  have hrefs := s.tables.refs_setFile_same hty hip
  refine g.withTables (fun ip => by rw [hrefs]) g.inum (fun ip h => g.home ip (hrefs ip ▸ h))
    (fun ip h h0 => absurd h (by rw [hrefs]; omega)) ?_ ?_
  · intro f' hf' hw'
    rw [Tables.setFile_file] at hf' hw' ⊢
    split_ifs at hf' hw' ⊢ with h
    · rw [hip]
      exact g.writable f (hty ▸ hf') (hw ▸ hw')
    · exact g.writable f' hf' hw'
  · intro f' hf'
    rw [Tables.setFile_file] at hf' ⊢
    split_ifs at hf' ⊢ with h
    · exact hclosed hf'
    · exact g.closed f' hf'

theorem Good.setOfile (g : Good c num held locks s) (fd : ℕ) (f : Option FileSlot) :
    Good c num held locks { s with tables := s.tables.setOfile p fd f } :=
  g.withTables (fun _ => rfl) g.inum g.home (fun ip h h0 => absurd h (by
    change ¬ 0 < s.tables.refs ip
    omega)) g.writable g.closed

section Tables

omit [Tolerant E]

theorem does_setFile {Q : Unit → State → Prop} (hty : x.type = (t.file f).type)
    (hip : x.ip = (t.file f).ip) (hw : x.writable = (t.file f).writable)
    (hclosed : x.ref = 0 → x.type = .none)
    (hQ : ∀ s, GoodAt c num held locks v (t.setFile f x) s → Q () s) :
    Does c E (GoodAt c num held locks v t) (setTables (t.setFile f x)) Q :=
  does_setTables (by rintro s g rfl rfl; exact g.setFile hty hip hw hclosed) hQ

theorem does_setOfile {Q : Unit → State → Prop} {fd : ℕ} {f : Option FileSlot}
    (hQ : ∀ s, GoodAt c num held locks v (t.setOfile p fd f) s → Q () s) :
    Does c E (GoodAt c num held locks v t) (setTables (t.setOfile p fd f)) Q :=
  does_setTables (by rintro s g rfl rfl; exact g.setOfile fd f) hQ

theorem does_filealloc {Q : Option FileSlot → State → Prop}
    (hnone : (∀ f, (t.file f).ref ≠ 0) → ∀ s, GoodAt c num held locks v t s → Q none s)
    (hsome : ∀ f, (t.file f).ref = 0 →
      ∀ s, GoodAt c num held locks v (t.setFile f { t.file f with ref := 1 }) s → Q (some f) s) :
    Does c E (GoodAt c num held locks v t) filealloc Q := by
  refine seq (does_tables ?_)
  cases hfind : (List.finRange NFILE).find? (fun f => decide ((t.file f).ref = 0)) with
  | none =>
    refine hnone fun f hf => ?_
    exact List.find?_eq_none.mp hfind f (List.mem_finRange f) (decide_eq_true hf)
  | some f =>
    have hf := List.find?_some hfind
    simp only [decide_eq_true_eq] at hf
    exact seq (does_setFile rfl rfl rfl (fun h => nomatch h) (hsome f hf))

theorem does_fdalloc {Q : Option ℕ → State → Prop}
    (hnone : (∀ fd < NOFILE, t.ofile p fd ≠ none) → ∀ s, GoodAt c num held locks v t s → Q none s)
    (hsome : ∀ fd t', t'.file = t.file → ∀ s, GoodAt c num held locks v t' s → Q (some fd) s) :
    Does c E (GoodAt c num held locks v t) (fdalloc p f) Q := by
  refine seq (does_tables ?_)
  cases hfind : (List.range NOFILE).find? (fun fd => decide (t.ofile p fd = none)) with
  | none =>
    refine hnone fun fd hfd hfree => ?_
    exact List.find?_eq_none.mp hfind fd (List.mem_range.mpr hfd) (decide_eq_true hfree)
  | some fd => exact seq (does_setOfile (hsome fd _ rfl))

theorem does_argfd {Q : Option (ℕ × FileSlot) → State → Prop} {fd : ℤ}
    (hQ : ∀ r s, GoodAt c num held locks v t s → Q r s) :
    Does c E (GoodAt c num held locks v t) (argfd p fd) Q :=
  seq (does_tables (Triple.ite (fun _ => hQ _) fun _ => hQ _))

end Tables

theorem does_filedup {Q : Unit → State → Prop}
    (hQ : ∀ t', t'.cwd = t.cwd → ∀ s, GoodAt c num held locks v t' s → Q () s) :
    Does c E (GoodAt c num held locks v t) (filedup f) Q :=
  seq (does_tables (Triple.ite (fun _ _ _ => Tolerant.panic (by decide)) fun _ =>
    does_setFile rfl rfl rfl (fun h => absurd h (Nat.succ_ne_zero _)) (hQ _ rfl)))

theorem Good.closeFile (g : Good c num held locks s)
    (hf : (s.tables.file f).type = .inode) (hx : x.type = .none) :
    Good c num (((s.tables.file f).ip, num (s.tables.file f).ip) ::ₘ held) locks
      { s with tables := s.tables.setFile f x } := by
  have hrefs := s.tables.refs_setFile f x
  simp only [hf, hx, true_and, reduceCtorEq, false_and, if_false, Nat.add_zero] at hrefs
  have hpos := Good.table_refs_pos hf
  refine g.withTables ?_ ?_ ?_ ?_ ?_ ?_
  · intro ip
    have h := hrefs ip
    rw [heldRefs_cons]
    by_cases hip : (s.tables.file f).ip = ip
    · rw [if_pos hip] at h
      rw [if_pos hip.symm]
      omega
    · rw [if_neg hip] at h
      rw [if_neg (Ne.symm hip)]
      omega
  · intro x hx
    rcases Multiset.mem_cons.mp hx with rfl | hx
    · exact g.home _ hpos
    · exact g.inum x hx
  · intro ip h
    refine g.home ip ?_
    have := hrefs ip
    omega
  · intro ip h h0
    have := hrefs ip
    omega
  · intro f' hf' hw'
    rw [Tables.setFile_file] at hf' hw' ⊢
    split_ifs at hf' hw' ⊢ with h
    · rw [hx] at hf'
      cases hf'
    · exact g.writable f' hf' hw'
  · intro f' hf'
    rw [Tables.setFile_file] at hf' ⊢
    split_ifs at hf' ⊢ with h
    · exact hx
    · exact g.closed f' hf'

theorem does_fileclose {Q : Unit → State → Prop}
    (hfree : ¬E .hang → (t.file f).type = .inode → locks = ∅)
    (hQ : ∀ w t', t'.cwd = t.cwd → ReflTransGen (Minor c) v w →
      ∀ s, GoodAt c num held locks w t' s → Q () s) :
    Does c E (GoodAt c num held locks v t) (fileclose f) Q := by
  refine seq (does_tables (Triple.ite (fun _ _ _ => Tolerant.panic (by decide)) fun h1 =>
    Triple.ite (fun h2 => ?_) fun h2 => ?_))
  · refine does_setFile rfl rfl rfl (fun h => ?_) (hQ _ _ rfl .refl)
    simp only at h
    omega
  by_cases hty : (t.file f).type = .inode
  · simp only [if_pos hty]
    have hg : ∀ s, Good c num held locks s → s.vol = v → s.tables = t →
        Good c num (((t.file f).ip, num (t.file f).ip) ::ₘ held) locks
          { s with tables := t.setFile f { t.file f with ref := 0, type := .none } } := by
      rintro s g rfl rfl
      exact g.closeFile hty rfl
    refine seq (does_setTables hg (assume (fun s h => h.known_lt .head) fun hlt => does_iput (fun h => ?_)
        (hQ _ _ rfl (minor_release hlt))))
    rw [hfree h hty]
    exact Finset.notMem_empty _
  · simp only [if_neg hty]
    have hnone : (t.file f).type = .none := by
      cases hk : (t.file f).type with
      | none => rfl
      | inode => exact absurd hk hty
    exact seq (does_setFile hnone.symm rfl rfl (fun _ => rfl) (hQ _ _ rfl .refl))

theorem does_openInode {Q : Option ISlot → State → Prop} {omode : BitVec 32}
    (g : Good c num 0 ∅ s) (hcwd : (s.tables.cwd p).isSome)
    (hsound : ¬E (.panic .noType) → s.vol.Sound c)
    (hnone : (omode &&& O_CREATE ≠ 0 → ¬s.Creates p path) →
      ∀ s', GoodAt c num 0 ∅ s.vol s.tables s' → Q none s')
    (hsome : ∀ ip i w,
      Effect c (if omode &&& O_CREATE ≠ 0 then (s.resolve true p path).map (true, ·) else none)
        s.vol w →
      (w = s.vol ∧ Spare s.vol s.tables 0 i ip ∧ (omode &&& O_CREATE ≠ 0 → ¬s.Creates p path)) ∨
        (omode &&& O_CREATE ≠ 0 ∧ s.Creates p path ∧ (w.dinode i).nlink = 1 ∧
          (w.dinode i).type ≠ 0 ∧ (s.vol.dinode i).type = 0) →
      (omode ≠ O_RDONLY → (w.dinode i).type ≠ T_DIR) →
      ∀ s', GoodAt c num ((ip, i) ::ₘ 0) (insert ip ∅) w s.tables s' → Q (some ip) s') :
    Does c E (GoodAt c num 0 ∅ s.vol s.tables) (openInode p path omode) Q := by
  refine Triple.ite (fun hcreate => ?_) fun hcreate => ?_
  · simp only [if_pos hcreate] at hsome
    refine does_create g hcwd hsound (by decide) (fun h => hnone fun _ => h) fun ip i w hty heff hnew => ?_
    refine hsome ip i w heff ?_ fun _ => by rw [hty]; decide
    rcases hnew with ⟨hw, hsp, hnot⟩ | ⟨hnew, hlink, hfree⟩
    · exact .inl ⟨hw, hsp, fun _ => hnot⟩
    · exact .inr ⟨hcreate, hnew, hlink, by rw [hty]; decide, hfree⟩
  · simp only [if_neg hcreate] at hsome
    have hnone := hnone fun h => absurd h hcreate
    refine seq (does_namei g hcwd hsound hnone fun ip i hsp hty => seq (does_ilock .head
      (fun _ => Finset.notMem_empty ip) hty fun hun _ =>
        seq (does_dinode .head (Finset.mem_insert_self _ _) (Triple.ite (fun _ => ?_) fun hdir => ?_))))
    · exact seq (does_iunlockput_spare hun hsp hnone)
    · exact hsome ip i _ (.same rfl) (.inl ⟨rfl, hsp, fun h => absurd h hcreate⟩) fun hom h => hdir ⟨h, hom⟩

theorem Good.openFile (g : Good c num ((ip, i) ::ₘ 0) ∅ s)
    (hold : (s.tables.file f).type = .none) (hx : x.type = .inode) (hip : x.ip = ip)
    (href : x.ref ≠ 0) (hty : (s.vol.dinode i).type ≠ 0)
    (hw : x.writable = true → (s.vol.dinode i).type ≠ T_DIR) :
    Good c (fun jp => (s.cache jp).inum) 0 ∅ { s with tables := s.tables.setFile f x } := by
  have hi : (s.cache ip).inum = i := g.inum (ip, i) (Multiset.mem_cons_self _ _)
  have hrefs := s.tables.refs_setFile f x
  simp only [hold, hx, hip, true_and, reduceCtorEq, false_and, if_false, Nat.add_zero] at hrefs
  refine g.withTables ?_ (by simp) (fun _ _ => rfl) ?_ ?_ ?_
  · intro jp
    rw [hrefs, heldRefs_cons, heldRefs_zero]
    simp only [eq_comm]
    omega
  · intro jp hpos h0
    have hjp := hrefs jp
    split_ifs at hjp with h
    · rw [← h, hi]
      exact hty
    · omega
  · intro f' hf' hw'
    rw [Tables.setFile_file] at hf' hw' ⊢
    split_ifs at hf' hw' ⊢ with h
    · rw [hip, hi]
      exact hw hw'
    · exact g.writable f' hf' hw'
  · intro f' hf'
    rw [Tables.setFile_file] at hf' ⊢
    split_ifs at hf' ⊢ with h
    · exact absurd hf' href
    · exact g.closed f' hf'

/-- There is a file and a descriptor for the file that `open` has to create. -/
def State.CanOpen (s : State) (p : Pid) (path : Path) (omode : BitVec 32) : Prop :=
  omode &&& O_CREATE ≠ 0 → s.Creates p path →
    (∃ f, (s.tables.file f).ref = 0) ∧ ∃ fd < NOFILE, s.tables.ofile p fd = none

theorem Tables.setFile_restore (t : Tables) (f : FileSlot) (x : File) :
    (t.setFile f x).setFile f (t.file f) = t := by
  simp only [Tables.setFile, Function.update_idem, Function.update_eq_self]

omit [Tolerant E] in
theorem does_fileclose_fresh {Q : Unit → State → Prop} (href : (t.file f).ref = 0)
    (hty : (t.file f).type = .none) (hQ : ∀ s, GoodAt c num held locks v t s → Q () s) :
    Does c E (GoodAt c num held locks v (t.setFile f { t.file f with ref := 1 })) (fileclose f) Q := by
  obtain ⟨u, hu⟩ : ∃ u, u = t.setFile f { t.file f with ref := 1 } := ⟨_, rfl⟩
  have hfile : u.file f = { t.file f with ref := 1 } := by rw [hu, Tables.setFile_file, if_pos rfl]
  have hrestore : u.setFile f (t.file f) = t := by rw [hu, Tables.setFile_restore]
  have hold : { t.file f with ref := 0, type := .none } = t.file f := by rw [← href, ← hty]
  rw [← hu]
  refine seq (does_tables ?_)
  simp only [hfile, hold]
  rw [if_neg (by decide), if_neg (by decide)]
  simp only [hty, reduceCtorEq, if_false]
  rw [← hrestore] at hQ
  exact seq (does_setFile (by rw [hfile]) (by rw [hfile]) (by rw [hfile]) (fun _ => hty) hQ)

variable {Q : ℤ → State → Prop}

theorem wp_sysOpen {omode : BitVec 32} (g : Good c num 0 ∅ s)
    (hcwd : (s.tables.cwd p).isSome) (hsound : ¬E (.panic .noType) → s.vol.Sound c)
    (hQ : ∀ r s' num', Good c num' 0 ∅ s' →
      Effect c (if omode &&& O_CREATE ≠ 0 then (s.resolve true p path).map (true, ·) else none)
        s.vol s'.vol →
      (r = -1 → (s.CanOpen p path omode → s'.vol = s.vol ∧ s'.tables = s.tables) ∧
        (¬s.CanOpen p path omode → s'.vol ≠ s.vol)) → Q r s') :
    WP (perform c) E (sysOpen p path omode) Q s := by
  refine wp_of_triple ⟨g, rfl, rfl⟩ (seq (does_openInode g hcwd hsound ?_ fun ip i w heff hnew hdir => ?_))
  · exact fun hno s' h => hQ _ s' num h.good (.same h.vol) fun _ => ⟨fun _ => ⟨h.vol, h.tables⟩,
      fun hcan => absurd (fun hc hnew => absurd hnew (hno hc)) hcan⟩
  have hun := Finset.notMem_empty ip
  -- Without a file or a descriptor the inode is let go again.
  have hfail : ((∀ f, (s.tables.file f).ref ≠ 0) ∨ ∀ fd < NOFILE, s.tables.ofile p fd ≠ none) →
      Does c E (GoodAt c num ((ip, i) ::ₘ 0) (insert ip ∅) w s.tables)
        (do
          iunlockput ip
          Pure.pure (-1 : ℤ)) Q := by
    refine fun hfull => assume (fun s h => h.known_lt .head) fun hi => seq (does_iunlockput hun
      fun s' h => hQ _ s' num h.good (by rw [h.vol]; exact heff.minor (minor_release hi)) fun _ => ?_)
    rcases hnew with ⟨rfl, hsp, hno⟩ | ⟨hcreate, hnew, hlink, hty, hfresh⟩
    · exact ⟨fun _ => ⟨h.vol.trans hsp.release, h.tables⟩,
        fun hcan => absurd (fun hc hnew => absurd hnew (hno hc)) hcan⟩
    · refine ⟨fun hcan => ?_, fun _ hvol => ?_⟩
      · obtain ⟨⟨f, hf⟩, fd, hfd, hfree⟩ := hcan hcreate hnew
        rcases hfull with hfull | hfull
        · exact absurd hf (hfull f)
        · exact absurd hfree (hfull fd hfd)
      · -- The new inode has a link, so it is still in use.
        rw [h.vol, Volume.release, if_neg fun hc => by rw [hlink] at hc; exact absurd hc.2.1 (by decide)] at hvol
        rw [hvol] at hty
        exact hty hfresh
  refine seq (does_filealloc (fun hfull => hfail (.inl hfull)) fun f hf => ?_)
  have hty : (s.tables.file f).type = .none := g.closed f hf
  refine seq (does_fdalloc (fun hfull => seq (does_fileclose_fresh hf hty (hfail (.inr hfull))))
    fun fd t' ht' => ?_)
  have hfile : t'.file f = { s.tables.file f with ref := 1 } := by
    rw [ht', Tables.setFile_file, if_pos rfl]
  refine assume (fun s h => h.locked_type .head (Finset.mem_insert_self _ _)) fun hnz =>
    seq (does_iunlock hun (seq (does_tables (seq fun s' h => ?_))))
  obtain ⟨g', rfl, rfl⟩ := h
  refine hQ _ _ _ (g'.openFile (by rw [hfile]; exact hty) rfl rfl ?_ hnz fun hw => hdir ?_) heff fun h => ?_
  · simp only [hfile]
    decide
  · rintro rfl
    simp at hw
  · omega

variable {fd : ℤ}

theorem does_sysDup (hQ : ∀ r t' s, GoodAt c num 0 ∅ v t' s → Q r s) :
    Does c E (GoodAt c num 0 ∅ v t) (sysDup p fd) Q := by
  refine seq (does_argfd fun r => ?_)
  cases r with
  | none => exact hQ _ _
  | some x =>
    exact seq (does_fdalloc (fun _ => hQ _ _) fun _ _ _ => seq (does_filedup fun _ _ => hQ _ _))

theorem does_sysClose
    (hQ : ∀ r w t', ReflTransGen (Minor c) v w → ∀ s, GoodAt c num 0 ∅ w t' s → Q r s) :
    Does c E (GoodAt c num 0 ∅ v t) (sysClose p fd) Q := by
  refine seq (does_argfd fun r => ?_)
  cases r with
  | none => exact hQ _ _ _ .refl
  | some x =>
    exact seq (does_tables (seq (does_setOfile (seq (does_fileclose (fun _ _ => rfl)
      fun _ _ _ hm => hQ _ _ _ hm)))))

section Reading

omit [Tolerant E]

theorem does_ilock_file {Q : Unit → State → Prop} (hf : (t.file f).type = .inode)
    (hQ : ∀ s, GoodAt c num 0 (insert (t.file f).ip ∅) v t s → Q () s) :
    Does c E (GoodAt c num 0 ∅ v t) (ilock (t.file f).ip) Q := by
  have hpos := Good.table_refs_pos hf
  exact assume (fun s h => h.used hpos) fun hnz => does_ilock (.inr ⟨hpos, rfl⟩)
    (fun _ => Finset.notMem_empty _) (fun _ => hnz) fun _ _ => hQ

theorem does_sysFstat (hQ : ∀ r s, GoodAt c num 0 ∅ v t s → Q r s) :
    Does c E (GoodAt c num 0 ∅ v t) (sysFstat p fd) Q := by
  refine seq (does_argfd fun r => ?_)
  cases r with
  | none => exact hQ _
  | some x =>
    refine seq (seq (does_tables (Triple.ite (fun hf => ?_) fun _ => hQ _)))
    exact seq (does_ilock_file hf (seq (does_dinode (.inr ⟨Good.table_refs_pos hf, rfl⟩)
      (Finset.mem_insert_self _ _) (seq (does_iunlock (Finset.notMem_empty _) (hQ _))))))

theorem does_advance {Q : Unit → State → Prop} {r : ℤ}
    (hQ : ∀ t', (t'.file f).type = (t.file f).type → (t'.file f).writable = (t.file f).writable →
      ∀ s, GoodAt c num held locks v t' s → Q () s) :
    Does c E (GoodAt c num held locks v t) (advance f r) Q := by
  refine seq (does_tables (Triple.ite (fun _ => ?_) fun _ => hQ t rfl rfl))
  refine assume (fun s h => h.closed f) fun hclosed => does_setFile rfl rfl rfl hclosed (hQ _ ?_ ?_) <;>
    simp [Tables.setFile_file]

end Reading

theorem does_sysRead {n : ℕ} (hQ : ∀ r t' s, GoodAt c num 0 ∅ v t' s → Q r s) :
    Does c E (GoodAt c num 0 ∅ v t) (sysRead p fd n) Q := by
  refine seq (does_argfd fun r => ?_)
  cases r with
  | none => exact hQ _ _
  | some x =>
    refine seq (seq (does_tables (Triple.ite (fun _ => hQ _ _) fun _ => ?_)))
    cases hf : (t.file x.2).type with
    | none => exact fun _ _ => Tolerant.panic (by decide)
    | inode =>
      exact seq (does_ilock_file hf (seq (does_tables (seq (does_readi (Finset.mem_insert_self _ _)
        fun r => seq (does_advance fun _ _ _ => seq (does_iunlock (Finset.notMem_empty _)
          (hQ _ _))))))))

theorem does_filewriteLoop {Q : Bool → State → Prop} {n : ℕ} {src : List Byte}
    (hf : (t.file f).type = .inode) (hw : (t.file f).writable = true)
    (hQ : ∀ r w t', ReflTransGen (Minor c) v w → ∀ s, GoodAt c num 0 ∅ w t' s → Q r s) :
    Does c E (GoodAt c num 0 ∅ v t) (filewriteLoop f n src) Q := by
  induction n generalizing v t src with
  | zero => exact hQ _ _ _ .refl
  | succ n ih =>
    have hk : Known num 0 t (t.file f).ip (num (t.file f).ip) := .inr ⟨Good.table_refs_pos hf, rfl⟩
    refine Triple.ite (fun _ => hQ _ _ _ .refl) fun _ => seq (does_tables (assume
      (fun s h => And.intro (h.writable hf hw) (h.known_lt hk)) ?_))
    rintro ⟨hfile, hlt⟩
    refine seq (does_ilock_file hf (seq (does_tables (seq (does_writei hk (Finset.mem_insert_self _ _)
      hfile fun r w hvw => seq (does_advance fun t' hty hw' =>
        seq (does_iunlock (Finset.notMem_empty _) ?_)))))))
    have hm : ReflTransGen (Minor c) v w := by
      rcases hvw with rfl | rfl
      · exact .refl
      · exact .single (.write hlt hfile)
    refine Triple.ite (fun _ => hQ _ _ _ hm) fun _ =>
      Triple.ite (fun _ _ _ => Tolerant.panic (by decide)) fun _ => ?_
    exact ih (hty.trans hf) (hw'.trans hw) fun r w' t'' hm' => hQ r w' t'' (hm.trans hm')

theorem does_sysWrite {src : List Byte}
    (hQ : ∀ r w t', ReflTransGen (Minor c) v w → ∀ s, GoodAt c num 0 ∅ w t' s → Q r s) :
    Does c E (GoodAt c num 0 ∅ v t) (sysWrite p fd src) Q := by
  refine seq (does_argfd fun r => ?_)
  cases r with
  | none => exact hQ _ _ _ .refl
  | some x =>
    refine seq (does_tables (Triple.ite (fun _ => hQ _ _ _ .refl) fun hw => ?_))
    cases hf : (t.file x.2).type with
    | none => exact fun _ _ => Tolerant.panic (by decide)
    | inode => exact seq (does_filewriteLoop hf (by simpa using hw) fun _ => hQ _)

theorem Good.setCwd {new : Refs} (g : Good c num new ∅ s) (old : Refs) {x : Option ISlot}
    (hold : ∀ ip, heldRefs old ip = if s.tables.cwd p = some ip then 1 else 0)
    (hnew : ∀ ip, heldRefs new ip = if x = some ip then 1 else 0)
    (hinum : ∀ y ∈ old, (s.cache y.1).inum = y.2)
    (hused : ∀ ip, x = some ip → (s.vol.dinode (s.cache ip).inum).type ≠ 0) :
    Good c (fun jp => (s.cache jp).inum) old ∅ { s with tables := s.tables.setCwd p x } := by
  have hrefs := s.tables.refs_setCwd p x
  refine g.withTables ?_ hinum (fun _ _ => rfl) ?_ g.writable g.closed
  · intro ip
    rw [hold, hnew]
    exact hrefs ip
  · intro ip hpos h0
    have h := hrefs ip
    by_cases hx : x = some ip
    · exact hused ip hx
    · rw [if_neg hx] at h
      omega

theorem heldRefs_single (ip jp : ISlot) (i : ℕ) :
    heldRefs ((ip, i) ::ₘ 0) jp = if some ip = some jp then 1 else 0 := by
  rw [heldRefs_cons, heldRefs_zero, Nat.zero_add]
  simp only [Option.some.injEq, eq_comm]

omit [Tolerant E] in
theorem does_setCwd {Q : Unit → State → Prop} {new : Refs} {x : Option ISlot} (old : Refs)
    (hold : ∀ ip, heldRefs old ip = if t.cwd p = some ip then 1 else 0)
    (hnew : ∀ ip, heldRefs new ip = if x = some ip then 1 else 0)
    (hinum : ∀ y ∈ old, Known num new t y.1 y.2)
    (hused : ∀ ip, x = some ip → ∃ i, Known num new t ip i ∧ (v.dinode i).type ≠ 0)
    (hQ : ∀ num' s, GoodAt c num' old ∅ v (t.setCwd p x) s → Q () s) :
    Does c E (GoodAt c num new ∅ v t) (setTables (t.setCwd p x)) Q := by
  rintro s ⟨g, rfl, rfl⟩
  refine hQ _ _ ⟨g.setCwd old hold hnew (fun y hy => (g.known (hinum y hy)).2) fun ip hip => ?_, rfl, rfl⟩
  obtain ⟨i, hk, hty⟩ := hused ip hip
  rw [(g.known hk).2]
  exact hty

theorem wp_sysChdir (g : Good c num 0 ∅ s)
    (hcwd : (s.tables.cwd p).isSome) (hsound : ¬E (.panic .noType) → s.vol.Sound c)
    (hQ : ∀ r s' num', Good c num' 0 ∅ s' → (r = -1 → s'.vol = s.vol ∧ s'.tables = s.tables) →
      ReflTransGen (Minor c) s.vol s'.vol → Q r s') : WP (perform c) E (sysChdir p path) Q s := by
  have hbad : ∀ s', GoodAt c num 0 ∅ s.vol s.tables s' → Q (-1) s' :=
    fun s' h => hQ _ s' num h.good (fun _ => ⟨h.vol, h.tables⟩) (h.vol ▸ .refl)
  refine wp_of_triple ⟨g, rfl, rfl⟩ (seq (does_namei g hcwd hsound hbad fun ip i hsp hty =>
    seq (does_ilock .head (fun _ => Finset.notMem_empty ip) hty fun hun hnz =>
      seq (does_dinode .head (Finset.mem_insert_self _ _) (Triple.ite (fun _ => ?_) fun _ => ?_)))))
  · exact seq (does_iunlockput_spare hun hsp hbad)
  obtain ⟨old, hold⟩ := Option.isSome_iff_exists.mp hcwd
  refine seq (does_iunlock hun (seq (does_tables (seq (does_setCwd ((old, num old) ::ₘ 0)
    (fun jp => by rw [heldRefs_single, hold]) (heldRefs_single ip · i) ?_ ?_ fun num' => ?_)))))
  · intro y hy
    obtain rfl := Multiset.mem_singleton.mp hy
    exact .inr ⟨cwd_refs_pos hold, rfl⟩
  · rintro jp ⟨⟩
    exact ⟨i, .head, hnz⟩
  · simp only [hold]
    refine assume (fun s h => h.known_lt .head) fun hlt => seq (does_iput
      (fun _ => Finset.notMem_empty _) fun s' h => hQ _ s' num' h.good (fun h => nomatch h) ?_)
    rw [h.vol]
    exact minor_release hlt

section Loading

omit [Tolerant E]

theorem does_loaduvm {Q : Bool → State → Prop} (hlk : ip ∈ locks)
    (hQ : ∀ b s, GoodAt c num held locks v t s → Q b s) (off pages sz : ℕ) :
    Does c E (GoodAt c num held locks v t) (loaduvm ip off pages sz) Q := by
  induction pages generalizing off sz with
  | zero => exact hQ _
  | succ n ih =>
    refine seq (does_readi hlk fun r => ?_)
    cases r with
    | none => exact hQ _
    | some bs => exact Triple.ite (fun _ => hQ _) fun _ => ih _ _

theorem does_loadSegments {Q : Bool → State → Prop} (hlk : ip ∈ locks)
    (hQ : ∀ b s, GoodAt c num held locks v t s → Q b s) (mem : ℕ → Bool) (n off : ℕ) :
    Does c E (GoodAt c num held locks v t) (loadSegments ip mem n off) Q := by
  induction n generalizing off with
  | zero => exact hQ _
  | succ n ih =>
    refine seq (does_readi hlk fun r => ?_)
    cases r with
    | none => exact hQ _
    | some ph =>
      refine Triple.ite (fun _ => hQ _) fun _ => Triple.ite (fun _ => ih _) fun _ =>
        Triple.ite (fun _ => hQ _) fun _ => seq (does_loaduvm hlk (fun b => ?_) _ _ _)
      exact Triple.ite (fun _ => ih _) fun _ => hQ _

theorem does_loadElf {Q : Bool → State → Prop} (hlk : ip ∈ locks)
    (hQ : ∀ b s, GoodAt c num held locks v t s → Q b s) (mem : ℕ → Bool) :
    Does c E (GoodAt c num held locks v t) (loadElf ip mem) Q := by
  refine seq (does_readi hlk fun r => ?_)
  cases r with
  | none => exact hQ _
  | some elf => exact Triple.ite (fun _ => hQ _) fun _ => does_loadSegments hlk hQ mem _ _

end Loading

theorem wp_exec {mem : ℕ → Bool} (g : Good c num 0 ∅ s)
    (hcwd : (s.tables.cwd p).isSome) (hsound : ¬E (.panic .noType) → s.vol.Sound c)
    (hQ : ∀ r s', GoodAt c num 0 ∅ s.vol s.tables s' → Q r s') :
    WP (perform c) E (exec p path mem) Q s :=
  wp_of_triple ⟨g, rfl, rfl⟩ (seq (does_namei g hcwd hsound (hQ _) fun ip _ hsp hty =>
    seq (does_ilock .head (fun _ => Finset.notMem_empty ip) hty fun hun _ =>
      seq (does_loadElf (Finset.mem_insert_self _ _) (fun _ =>
        seq (does_iunlockput_spare hun hsp (hQ _))) mem))))

theorem does_forkFiles {Q : Unit → State → Prop} {child : Pid} {fds : List ℕ}
    (hQ : ∀ t', t'.cwd = t.cwd → ∀ s, GoodAt c num held locks v t' s → Q () s) :
    Does c E (GoodAt c num held locks v t) (forkFiles p child fds) Q := by
  induction fds generalizing t with
  | nil => exact hQ t rfl
  | cons fd fds ih =>
    refine seq (seq (does_tables ?_))
    cases t.ofile p fd with
    | none => exact ih hQ
    | some f =>
      exact seq (does_filedup fun _ hc => seq (does_tables (does_setOfile (ih fun _ hc' =>
        hQ _ (hc'.trans hc)))))

theorem does_fork {child : Pid} (hcwd : (t.cwd p).isSome)
    (hchild : t.cwd child = none) (hQ : ∀ r num' t' s, GoodAt c num' 0 ∅ v t' s → Q r s) :
    Does c E (GoodAt c num 0 ∅ v t) (fork p child) Q := by
  refine seq (does_forkFiles fun t' hc => seq (does_tables ?_))
  obtain ⟨ip, hip⟩ := Option.isSome_iff_exists.mp hcwd
  rw [← hc] at hip hchild
  have hpos := cwd_refs_pos hip
  simp only [hip]
  refine assume (fun s h => h.used hpos) fun hnz => seq (does_idup (.inr ⟨hpos, rfl⟩) fun _ =>
    seq (does_setCwd 0 (fun jp => by rw [hchild]; rfl) (heldRefs_single ip · _) (by simp) ?_
      fun _ => hQ _ _ _))
  rintro jp ⟨⟩
  exact ⟨_, .head, hnz⟩

theorem does_exitFiles {Q : Unit → State → Prop} {fds : List ℕ}
    (hQ : ∀ w t', t'.cwd = t.cwd → ReflTransGen (Minor c) v w →
      ∀ s, GoodAt c num held ∅ w t' s → Q () s) :
    Does c E (GoodAt c num held ∅ v t) (exitFiles p fds) Q := by
  induction fds generalizing v t with
  | nil => exact hQ v t rfl .refl
  | cons fd fds ih =>
    refine seq (seq (does_tables ?_))
    cases t.ofile p fd with
    | none => exact ih hQ
    | some f =>
      exact seq (does_fileclose (fun _ _ => rfl) fun _ _ hc hm => seq (does_tables (does_setOfile
        (ih fun _ _ hc' hm' => hQ _ _ (hc'.trans hc) (hm.trans hm')))))

theorem does_exit (hcwd : (t.cwd p).isSome)
    (hQ : ∀ r num' w t', ReflTransGen (Minor c) v w → ∀ s, GoodAt c num' 0 ∅ w t' s → Q r s) :
    Does c E (GoodAt c num 0 ∅ v t) (exit p) Q := by
  refine seq (does_exitFiles fun w t' hc hm => seq (does_tables ?_))
  obtain ⟨old, hold⟩ := Option.isSome_iff_exists.mp hcwd
  rw [← hc] at hold
  refine seq (does_setCwd ((old, num old) ::ₘ 0) (fun jp => by rw [heldRefs_single, hold])
    (fun _ => rfl) ?_ (fun _ h => nomatch h) fun num' => ?_)
  · intro y hy
    obtain rfl := Multiset.mem_singleton.mp hy
    exact .inr ⟨cwd_refs_pos hold, rfl⟩
  · simp only [hold]
    exact assume (fun s h => h.known_lt .head) fun hlt => seq (does_iput
      (fun _ => Finset.notMem_empty _) (hQ _ num' _ _ (hm.trans (minor_release hlt))))

def Call.target (s : State) (p : Pid) : Call → Option (Bool × ℕ × Name)
  | .open path omode =>
    if omode &&& O_CREATE ≠ 0 then (s.resolve true p path).map (true, ·) else none
  | .mkdir path => (s.resolve true p path).map (true, ·)
  | .mknod path _ _ => (s.resolve true p path).map (true, ·)
  | .link _ new => (s.resolve true p new).map (true, ·)
  | .unlink path => (s.resolve true p path).map (false, ·)
  | _ => none

theorem wp_create_call {t major minor : BitVec 16} (g : Good c num 0 ∅ s)
    (hcwd : (s.tables.cwd p).isSome) (hsound : ¬E (.panic .noType) → s.vol.Sound c) (ht : t ≠ 0)
    (hQ : ∀ r s', Good c num 0 ∅ s' → (r = -1 → s'.vol = s.vol ∧ s'.tables = s.tables) →
      Effect c ((s.resolve true p path).map (true, ·)) s.vol s'.vol → Q r s') :
    WP (perform c) E (do
      match ← create p path t major minor with
      | none => Pure.pure (-1)
      | some ip => do
        iunlockput ip
        Pure.pure 0) Q s := by
  refine wp_of_triple ⟨g, rfl, rfl⟩ (seq (does_create g hcwd hsound ht ?_ fun ip i w _ heff _ => ?_))
  · exact fun _ s' h => hQ _ s' h.good (fun _ => ⟨h.vol, h.tables⟩) (.same h.vol)
  · refine assume (fun s h => h.known_lt .head) fun hi => seq (does_iunlockput (Finset.notMem_empty ip)
      fun s' h => hQ _ s' h.good (fun h => nomatch h) ?_)
    rw [h.vol]
    exact heff.minor (minor_release hi)

def Call.LinksForth (s : State) (p : Pid) : Call → Prop
  | .link old new => ¬s.LinksBack p old new
  | _ => True

theorem wp_prog_faults (g : Good c num 0 ∅ s) {call : Call} (hen : call.enabled s.tables p = true)
    (hfree : ¬E .hang → call.LinksForth s p ∧ s.vol.SelfNamed c)
    (hsound : ¬E (.panic .noType) → s.vol.Sound c) :
    WP (perform c) E (call.prog p)
      (fun _ s' => (∃ num', Good c num' 0 ∅ s') ∧ Effect c (call.target s p) s.vol s'.vol) s := by
  have hcwd : (s.tables.cwd p).isSome = true := by
    cases call <;> simp_all [Call.enabled]
  have hat : GoodAt c num 0 ∅ s.vol s.tables s := ⟨g, rfl, rfl⟩
  have hminor : ∀ {num' w t' s'}, GoodAt c num' 0 ∅ w t' s' → ReflTransGen (Minor c) s.vol w →
      (∃ num', Good c num' 0 ∅ s') ∧ Effect c (call.target s p) s.vol s'.vol :=
    fun h hm => ⟨⟨_, h.good⟩, (Effect.same rfl).minor (h.vol ▸ hm)⟩
  cases call with
  | «open» path omode =>
    exact wp_sysOpen g hcwd hsound fun r s' num' g' h _ => ⟨⟨num', g'⟩, h⟩
  | close fd =>
    exact wp_of_triple hat (does_sysClose fun r w t' hm s' h => hminor h hm)
  | read fd n =>
    exact wp_of_triple hat (does_sysRead fun r t' s' h => hminor h .refl)
  | write fd src =>
    exact wp_of_triple hat (does_sysWrite fun r w t' hm s' h => hminor h hm)
  | fstat fd =>
    exact wp_of_triple hat (does_sysFstat fun r s' h => hminor h .refl)
  | dup fd =>
    exact wp_of_triple hat (does_sysDup fun r t' s' h => hminor h .refl)
  | mkdir path | mknod path major minor =>
    exact wp_create_call g hcwd hsound (by decide) fun r s' g' _ h =>
      ⟨⟨num, g'⟩, h⟩
  | link old new =>
    exact wp_sysLink g hcwd (fun h => (hfree h).1) hsound fun r s' g' _ _ h _ => ⟨⟨num, g'⟩, h⟩
  | unlink path =>
    exact wp_sysUnlink g hcwd (fun h => (hfree h).2) hsound fun r s' g' _ _ h => ⟨⟨num, g'⟩, h⟩
  | chdir path =>
    exact wp_sysChdir g hcwd hsound fun r s' num' g' _ h =>
      ⟨⟨num', g'⟩, (Effect.same rfl).minor h⟩
  | exec path mem =>
    exact wp_exec g hcwd hsound fun r s' h => hminor h .refl
  | fork child =>
    have hchild : s.tables.cwd child = none := by
      simp only [Call.enabled, Bool.and_eq_true, Option.isNone_iff_eq_none] at hen
      exact hen.2
    exact wp_of_triple hat (does_fork hcwd hchild fun r num' t' s' h => hminor h .refl)
  | exit =>
    exact wp_of_triple hat (does_exit hcwd fun r num' w t' hm s' h => hminor h hm)

theorem wp_prog {strict : Bool} (g : Good c num 0 ∅ s) {call : Call}
    (hen : call.enabled s.tables p = true) (hsound : strict = true → s.vol.Sound c) :
    W c strict (call.prog p)
      (fun _ s' => (∃ num', Good c num' 0 ∅ s') ∧ Effect c (call.target s p) s.vol s'.vol) s :=
  wp_prog_faults g hen (fun h => absurd allowed_hang h) fun h => hsound (strict_of_noType h)

end Xv6.Fs
