import Xv6.Fs.Rules

/-!
# Directory search and path resolution

`Volume.lookup`, `Volume.freeSlot` and `Volume.walk` say on the volume alone what `dirlookup`, the
search in `dirlink` and `namex` compute through the inode cache.
-/

namespace Xv6.Fs

open Lib Lib.Prog
open Triple (seq assume)

namespace Volume

def lookupFrom (v : Volume) (d : ℕ) (name : Name) : ℕ → ℕ → Option ℕ
  | 0, _ => none
  | n + 1, k =>
    if (v.ent d k).inum ≠ 0 ∧ name = (v.ent d k).name then some k
    else lookupFrom v d name n (k + 1)

def lookup (v : Volume) (d : ℕ) (name : Name) : Option ℕ := v.lookupFrom d name (v.nents d) 0

def freeFrom (v : Volume) (d : ℕ) : ℕ → ℕ → ℕ
  | 0, k => k
  | n + 1, k => if (v.ent d k).inum = 0 then k else freeFrom v d n (k + 1)

def freeSlot (v : Volume) (d : ℕ) : ℕ := v.freeFrom d (v.nents d) 0

def walk (v : Volume) (parent : Bool) : List Name → ℕ → Option (ℕ × Name)
  | [], d => if parent then none else some (d, [])
  | name :: rest, d =>
    if (v.dinode d).type ≠ T_DIR then none
    else if parent ∧ rest = [] then some (d, name)
    else
      match v.lookup d name with
      | none => none
      | some k => walk v parent rest (v.ent d k).inum

/-- Every directory entry refers to an allocated inode, and there is a root. -/
structure Sound (c : Conf) (v : Volume) : Prop where
  root : (v.dinode ROOTINO).type ≠ 0
  ents : ∀ d < c.ninodes, (v.dinode d).type = T_DIR → ∀ k < v.nents d, (v.ent d k).inum ≠ 0 →
    (v.dinode (v.ent d k).inum).type ≠ 0

def SelfNamed (c : Conf) (v : Volume) : Prop :=
  ∀ d < c.ninodes, (v.dinode d).type = T_DIR → ∀ k < v.nents d, (v.ent d k).inum ≠ 0 →
    (v.ent d k).inum = d → (v.ent d k).name = dotName ∨ (v.ent d k).name = dotdotName

variable {v w : Volume} {d k : ℕ} {name : Name}

theorem lookupFrom_some {n m : ℕ} (h : v.lookupFrom d name n m = some k) :
    m ≤ k ∧ k < m + n ∧ (v.ent d k).inum ≠ 0 ∧ name = (v.ent d k).name := by
  induction n generalizing m with
  | zero => simp [lookupFrom] at h
  | succ n ih =>
    rw [lookupFrom] at h
    split_ifs at h with hm
    · cases h
      exact ⟨le_rfl, by omega, hm⟩
    · obtain ⟨h1, h2, h3⟩ := ih h
      exact ⟨by omega, by omega, h3⟩

theorem lookup_some (h : v.lookup d name = some k) :
    k < v.nents d ∧ (v.ent d k).inum ≠ 0 ∧ name = (v.ent d k).name := by
  obtain ⟨-, h2, h3⟩ := lookupFrom_some h
  exact ⟨by omega, h3⟩

theorem lookupFrom_none {n m : ℕ} (h : v.lookupFrom d name n m = none) :
    ∀ k, m ≤ k → k < m + n → ¬ ((v.ent d k).inum ≠ 0 ∧ name = (v.ent d k).name) := by
  induction n generalizing m with
  | zero => intro k h1 h2; omega
  | succ n ih =>
    intro k h1 h2
    rw [lookupFrom] at h
    split_ifs at h with hm
    rcases Nat.eq_or_lt_of_le h1 with rfl | h1
    · exact hm
    · exact ih h k h1 (by omega)

theorem lookup_none (h : v.lookup d name = none) (hk : k < v.nents d)
    (hlive : (v.ent d k).inum ≠ 0) : name ≠ (v.ent d k).name :=
  fun hn => lookupFrom_none h k (Nat.zero_le _) (by omega) ⟨hlive, hn⟩

theorem freeFrom_spec (v : Volume) (d n m : ℕ) :
    v.freeFrom d n m ≤ m + n ∧ (v.freeFrom d n m < m + n → (v.ent d (v.freeFrom d n m)).inum = 0) := by
  induction n generalizing m with
  | zero => simp [freeFrom]
  | succ n ih =>
    rw [freeFrom]
    split_ifs with h
    · exact ⟨by omega, fun _ => h⟩
    · have := ih (m + 1)
      exact ⟨by omega, fun hlt => this.2 (by omega)⟩

theorem freeSlot_le (v : Volume) (d : ℕ) : v.freeSlot d ≤ v.nents d :=
  (freeFrom_spec v d (v.nents d) 0).1.trans (Nat.zero_add _).le

theorem freeSlot_free (h : v.freeSlot d < v.nents d) : (v.ent d (v.freeSlot d)).inum = 0 :=
  (freeFrom_spec v d (v.nents d) 0).2 (h.trans_eq (Nat.zero_add _).symm)

theorem two_le_freeSlot_of (htwo : 2 ≤ v.nents d) (h0 : (v.ent d 0).inum ≠ 0)
    (h1 : (v.ent d 1).inum ≠ 0) : 2 ≤ v.freeSlot d := by
  by_contra hlt
  have hfree := freeSlot_free (v := v) (d := d) (by omega)
  obtain h | h : v.freeSlot d = 0 ∨ v.freeSlot d = 1 := by omega
  · exact h0 (h ▸ hfree)
  · exact h1 (h ▸ hfree)

theorem two_le_lookup_of (h0 : name ≠ (v.ent d 0).name) (h1 : name ≠ (v.ent d 1).name)
    (h : v.lookup d name = some k) : 2 ≤ k := by
  have hname := (lookup_some h).2.2
  have : k ≠ 0 := fun hk => h0 (hk ▸ hname)
  have : k ≠ 1 := fun hk => h1 (hk ▸ hname)
  omega

theorem lookupFrom_congr {n m : ℕ} (hent : ∀ k < m + n, w.ent d k = v.ent d k) :
    w.lookupFrom d name n m = v.lookupFrom d name n m := by
  induction n generalizing m with
  | zero => rfl
  | succ n ih =>
    have hrest : w.lookupFrom d name n (m + 1) = v.lookupFrom d name n (m + 1) :=
      ih fun k hk => hent k (by omega)
    simp only [lookupFrom, hent m (by omega), hrest]

theorem lookup_congr (hn : w.nents d = v.nents d) (hent : ∀ k < v.nents d, w.ent d k = v.ent d k) :
    w.lookup d name = v.lookup d name := by
  rw [lookup, lookup, hn]
  exact lookupFrom_congr fun k hk => hent k (hk.trans_eq (Nat.zero_add _))

section Walk

/-! A walk stays in a set of inodes that its directories do not lead out of, and it depends on
these directories only. -/

variable {P : ℕ → Prop} {names : List Name} {j : ℕ}

theorem walk_congr (hnext : ∀ d, P d → (v.dinode d).type = T_DIR → ∀ k < v.nents d, P (v.ent d k).inum)
    (htype : ∀ d, P d → (w.dinode d).type = (v.dinode d).type)
    (hn : ∀ d, P d → (v.dinode d).type = T_DIR → w.nents d = v.nents d)
    (hent : ∀ d, P d → (v.dinode d).type = T_DIR → ∀ k < v.nents d, w.ent d k = v.ent d k)
    (parent : Bool) (hd : P d) : w.walk parent names d = v.walk parent names d := by
  induction names generalizing d with
  | nil => rfl
  | cons name rest ih =>
    rw [walk, walk, htype d hd]
    by_cases hdir : (v.dinode d).type = T_DIR
    · rw [if_neg (not_not.mpr hdir), if_neg (not_not.mpr hdir),
        lookup_congr (hn d hd hdir) (hent d hd hdir)]
      cases hk : v.lookup d name with
      | none => rfl
      | some k =>
        have hlt := (lookup_some hk).1
        simp only [hent d hd hdir k hlt, ih (hnext d hd hdir k hlt)]
    · rw [if_pos hdir, if_pos hdir]

end Walk

theorem walk_mem {names : List Name} {j : ℕ} (h : v.walk true names d = some (j, name)) :
    name ∈ names := by
  induction names generalizing d with
  | nil => simp [walk] at h
  | cons m rest ih =>
    rw [walk] at h
    split_ifs at h with h1 h2
    · cases h
      exact List.mem_cons_self
    · split at h
      · cases h
      · exact List.mem_cons_of_mem _ (ih h)

theorem walk_parent {names : List Name} {j : ℕ} (h : v.walk true names d = some (j, name)) :
    (v.dinode j).type = T_DIR := by
  induction names generalizing d with
  | nil => simp [walk] at h
  | cons m rest ih =>
    rw [walk] at h
    split_ifs at h with h1 h2
    · cases h
      exact not_not.mp h1
    · split at h
      · cases h
      · exact ih h

end Volume

variable {path : Path}

theorem elems_canon {name : Name} (h0 : 0 ∉ path) (h : name ∈ elems path) : Canon name := by
  have hskip : ∀ {q r : Path} {m : Name}, 0 ∉ q → skipelem q = some (m, r) → Canon m ∧ 0 ∉ r := by
    intro q r m hq hs
    have hsub : ∀ b, b ∈ q.dropWhile (· == slash) → b ∈ q := fun b hb =>
      (List.dropWhile_sublist _).subset hb
    unfold skipelem at hs
    split at hs
    · cases hs
    · next c cs heq =>
      simp only [Option.some.injEq, Prod.mk.injEq] at hs
      obtain ⟨rfl, rfl⟩ := hs
      rw [heq] at hsub
      refine ⟨⟨List.length_take_le _ _, fun hz => hq (hsub 0 ?_)⟩, fun hz => hq (hsub 0 ?_)⟩
      · exact (List.takeWhile_sublist _).subset (List.mem_of_mem_take hz)
      · exact (List.dropWhile_sublist _).subset ((List.dropWhile_sublist _).subset hz)
  have hall : ∀ n (q : Path), 0 ∉ q → name ∈ pathElems n q → Canon name := by
    intro n
    induction n with
    | zero => intro q _ hm; simp [pathElems] at hm
    | succ n ih =>
      intro q hq hm
      rw [pathElems] at hm
      split at hm
      · simp at hm
      · next m r hs =>
        obtain ⟨h1, h2⟩ := hskip hq hs
        rcases List.mem_cons.mp hm with rfl | hm
        · exact h1
        · exact ih r h2 hm
  exact hall _ path h0 h

theorem zero_not_mem_cstring (path : Path) : 0 ∉ path.takeWhile (· != 0) := by
  intro h
  have := List.all_eq_true.mp (List.all_takeWhile (l := path)) 0 h
  simp at this

variable {c : Conf} {E : Fault → Prop} {num : ISlot → ℕ} {held : Refs} {locks : Finset ISlot} {s : State}
variable {v : Volume} {t : Tables} {dp : ISlot} {d : ℕ} {name : Name}

theorem direntsFrom_zero (hwf : v.WF c) (hd : d < c.ninodes)
    (hty : (v.dinode d).type = T_DIR) : direntsFrom (v.dinode d).size 0 = v.nents d := by
  rw [direntsFrom, ← hwf.nents_mul hd hty]
  simp only [DIRENT, DIRSIZ]
  omega

theorem GoodAt.dirents_zero (h : GoodAt c num held locks v t s) (hdp : Known num held t dp d)
    (hty : (v.dinode d).type = T_DIR) : direntsFrom (v.dinode d).size 0 = v.nents d := by
  have hlt := h.known_lt hdp
  obtain ⟨g, rfl, rfl⟩ := h
  exact direntsFrom_zero g.vol hlt hty

theorem does_emptyDirentLoop {Q : ℕ → State → Prop} (hdp : Known num held t dp d) (hlk : dp ∈ locks)
    (hty : (v.dinode d).type = T_DIR) {n m : ℕ} (hn : m + n = v.nents d)
    (hQ : ∀ s, GoodAt c num held locks v t s → Q (DIRENT * v.freeFrom d n m) s) :
    Does c E (GoodAt c num held locks v t) (emptyDirentLoop dp n (DIRENT * m)) Q := by
  induction n generalizing m with
  | zero => exact hQ
  | succ n ih =>
    refine seq (does_readDirent hdp hlk hty (by omega) ?_)
    simp only [Volume.freeFrom] at hQ
    by_cases hm : (v.ent d m).inum = 0
    · simp only [if_pos hm] at hQ ⊢
      exact hQ
    · simp only [if_neg hm] at hQ ⊢
      exact ih (by omega) hQ

variable [CacheFull E]
variable {Q : Option (ISlot × ℕ) → State → Prop}

theorem does_dirlookupLoop (hdp : Known num held t dp d)
    (hlk : dp ∈ locks) (hty : (v.dinode d).type = T_DIR) {n m : ℕ} (hn : m + n = v.nents d)
    (hnone : v.lookupFrom d name n m = none → ∀ s, GoodAt c num held locks v t s → Q none s)
    (hsome : ∀ k, v.lookupFrom d name n m = some k → ∀ ip, Spare v t held (v.ent d k).inum ip →
      ∀ s, GoodAt c num ((ip, (v.ent d k).inum) ::ₘ held) locks v t s →
        Q (some (ip, DIRENT * k)) s) :
    Does c E (GoodAt c num held locks v t) (dirlookupLoop dp name n (DIRENT * m)) Q := by
  induction n generalizing m with
  | zero => exact hnone rfl
  | succ n ih =>
    refine seq (does_readDirent hdp hlk hty (by omega) ?_)
    simp only [Volume.lookupFrom] at hnone hsome
    by_cases hm : (v.ent d m).inum ≠ 0 ∧ name = (v.ent d m).name
    · simp only [if_pos hm] at hsome ⊢
      refine assume (fun s h => ?_) fun hlt => seq (does_iget hlt (hsome m rfl))
      have hd := h.known_lt hdp
      obtain ⟨g, rfl, rfl⟩ := h
      exact g.vol.entries d hd hty m (by omega)
    · simp only [if_neg hm] at hnone hsome ⊢
      exact ih (by omega) hnone hsome

theorem does_dirlookup_dir (hdp : Known num held t dp d)
    (hlk : dp ∈ locks) (hty : (v.dinode d).type = T_DIR)
    (hnone : v.lookup d name = none → ∀ s, GoodAt c num held locks v t s → Q none s)
    (hsome : ∀ k, v.lookup d name = some k → ∀ ip, Spare v t held (v.ent d k).inum ip →
      ∀ s, GoodAt c num ((ip, (v.ent d k).inum) ::ₘ held) locks v t s →
        Q (some (ip, DIRENT * k)) s) :
    Does c E (GoodAt c num held locks v t) (dirlookup dp name) Q := by
  refine assume (fun s h => h.dirents_zero hdp hty) fun hn => seq (does_dinode hdp hlk ?_)
  rw [if_neg (not_not.mpr hty), hn]
  exact does_dirlookupLoop hdp hlk hty (Nat.zero_add _) hnone hsome

omit [CacheFull E] in
theorem does_dirlookup [Tolerant E] (hdp : Known num held t dp d) (hlk : dp ∈ locks)
    (hnone : (v.dinode d).type = T_DIR → v.lookup d name = none →
      ∀ s, GoodAt c num held locks v t s → Q none s)
    (hsome : (v.dinode d).type = T_DIR → ∀ k, v.lookup d name = some k →
      ∀ ip, Spare v t held (v.ent d k).inum ip →
      ∀ s, GoodAt c num ((ip, (v.ent d k).inum) ::ₘ held) locks v t s →
        Q (some (ip, DIRENT * k)) s) :
    Does c E (GoodAt c num held locks v t) (dirlookup dp name) Q := by
  by_cases hty : (v.dinode d).type = T_DIR
  · exact does_dirlookup_dir hdp hlk hty (hnone hty) (hsome hty)
  · refine seq (does_dinode hdp hlk ?_)
    rw [if_pos hty]
    exact fun _ _ => Tolerant.panic (by decide)

omit [CacheFull E] in
theorem does_iput_locked {Q : Unit → State → Prop} (hlk : dp ∈ locks) (hE : E .hang) :
    Does c E (GoodAt c num ((dp, d) ::ₘ held) locks v t) (iput dp) Q := by
  rintro s ⟨g, rfl, rfl⟩
  obtain ⟨-, hpos, -⟩ := g.held_first
  simp only [iput, wp_call, perform, if_neg (Nat.pos_iff_ne_zero.mp hpos), State.iput,
    if_pos ((g.lock dp).mpr hlk)]
  exact hE

omit [CacheFull E] in
theorem does_dirlink [Tolerant E] {Q : ℤ → State → Prop} {i : ℕ} (hdp : Known num held t dp d)
    (hlk : dp ∈ locks) (hi : i < c.ninodes)
    (hfree : ¬E .hang → ∀ k, v.lookup d name = some k →
      ∀ jp ∈ locks, ∃ j, Known num held t jp j ∧ j ≠ (v.ent d k).inum)
    (hexists : ∀ k, v.lookup d name = some k → (v.ent d k).inum ≠ d →
      ∀ s, GoodAt c num held locks v t s → Q (-1) s)
    (hnew : v.lookup d name = none → (v.dinode d).type = T_DIR →
      ∀ s, GoodAt c num held locks (v.writeDirent d ⟨i, name⟩ (v.freeSlot d)) t s → Q 0 s) :
    Does c E (GoodAt c num held locks v t) (dirlink dp name i) Q := by
  refine seq (does_dirlookup hdp hlk (fun hty hnone => ?_) fun hty k hk ip hsp => ?_)
  · refine assume (fun s h => h.dirents_zero hdp hty) fun hn => seq (does_dinode hdp hlk ?_)
    rw [hn]
    refine seq (does_emptyDirentLoop hdp hlk hty (Nat.zero_add _) ?_)
    refine seq (does_writeDirent hdp hlk hty (v.freeSlot_le d) hi ?_ (hnew hnone hty))
    exact fun _ _ => Tolerant.panic (by decide)
  · -- A locked slot holds another inode than the one found.
    have hother : ∀ s, GoodAt c num ((ip, (v.ent d k).inum) ::ₘ held) locks v t s →
        ¬E .hang → ip ∉ locks := by
      intro s h hhang hip
      obtain ⟨j, hj, hne⟩ := hfree hhang k hk ip hip
      exact hne (h.known_eq (hj.imp_left Multiset.mem_cons_of_mem) .head)
    -- Under a name for the directory itself it is the locked slot.
    refine assume (c := (v.ent d k).inum = d → ip = dp ∧ E .hang) (fun s h hself => ?_) fun hself => ?_
    · have hdp' := hdp.imp_left (Multiset.mem_cons_of_mem (b := (ip, (v.ent d k).inum)))
      refine ⟨h.slot_eq .head hdp' hself, by_contra fun hhang => ?_⟩
      obtain ⟨j, hj, hne⟩ := hfree hhang k hk dp hlk
      exact hne ((h.known_eq (hj.imp_left Multiset.mem_cons_of_mem) hdp').trans hself.symm)
    by_cases hd : (v.ent d k).inum = d
    · obtain ⟨rfl, hE⟩ := hself hd
      exact seq (does_iput_locked hlk hE)
    · exact assume hother fun hout => seq (does_iput_spare hout hsp (hexists k hk hd))

def State.start (s : State) (p : Pid) (path : Path) : ℕ :=
  if path.head? = some slash then ROOTINO
  else match s.tables.cwd p with
    | none => 0
    | some ip => (s.cache ip).inum

def State.resolve (s : State) (parent : Bool) (p : Pid) (path : Path) : Option (ℕ × Name) :=
  s.vol.walk parent (elems (path.takeWhile (· != 0))) (s.start p (path.takeWhile (· != 0)))

/-- The last element of the path names an entry that refers to its own directory. -/
def State.LeadsBack (s : State) (p : Pid) (path : Path) : Prop :=
  ∃ d name, s.resolve true p path = some (d, name) ∧
    ∃ k, s.vol.lookup d name = some k ∧ (s.vol.ent d k).inum = d

def State.LinksBack (s : State) (p : Pid) (old new : Path) : Prop :=
  (∃ i name, s.resolve false p old = some (i, name) ∧ (s.vol.dinode i).type ≠ T_DIR) ∧ s.LeadsBack p new

theorem Spare.cons {ip : ISlot} {i : ℕ} (h : Spare v t held i ip) (x : ISlot × ℕ) :
    Spare v t (x ::ₘ held) i ip := by
  intro h1 h2
  have := h h1 h2
  rw [heldRefs_cons]
  omega

theorem Spare.tail {ip np : ISlot} {i j : ℕ} (h : Spare v t ((ip, i) ::ₘ held) j np)
    (hi : Spare v t held i ip) (hsame : np = ip → j = i) : Spare v t held j np := by
  intro h1 h2
  have := h h1 h2
  rw [heldRefs_cons] at this
  by_cases hnp : np = ip
  · obtain rfl := hsame hnp
    rw [hnp]
    exact hi h1 h2
  · rw [if_neg hnp] at this
    exact this

theorem does_namexLoop {Q : Option (ISlot × Name) → State → Prop} {parent : Bool}
    (hfree : ¬E .hang → locks = ∅) (hsound : ¬E (.panic .noType) → v.Sound c) {names : List Name}
    {ip : ISlot} {i : ℕ} (hty : ¬E (.panic .noType) → (v.dinode i).type ≠ 0) (hsp : Spare v t held i ip)
    (hnone : v.walk parent names i = none → ∀ s, GoodAt c num held locks v t s → Q none s)
    (hsome : ∀ jp j name, v.walk parent names i = some (j, name) → Spare v t held j jp →
      (¬E (.panic .noType) → (v.dinode j).type ≠ 0) →
      ∀ s, GoodAt c num ((jp, j) ::ₘ held) locks v t s → Q (some (jp, name)) s) :
    Does c E (GoodAt c num ((ip, i) ::ₘ held) locks v t) (namexLoop parent names ip) Q := by
  have hout : ∀ ip, ¬E .hang → ip ∉ locks := fun ip h => by rw [hfree h]; exact Finset.notMem_empty ip
  induction names generalizing ip i with
  | nil =>
    cases parent with
    | false => exact hsome ip i [] rfl hsp hty
    | true => exact seq (does_iput_spare (hout ip) hsp (hnone rfl))
  | cons name rest ih =>
    simp only [Volume.walk] at hnone hsome
    have hlk : ip ∈ insert ip locks := Finset.mem_insert_self _ _
    refine seq (does_ilock .head (hout ip) hty fun hun _ => seq (does_dinode .head hlk ?_))
    by_cases hdir : (v.dinode i).type = T_DIR
    · simp only [if_neg (not_not.mpr hdir)] at hnone hsome ⊢
      by_cases hlast : parent = true ∧ rest = []
      · simp only [if_pos hlast] at hsome ⊢
        exact seq (does_iunlock hun (hsome ip i name rfl hsp hty))
      · simp only [if_neg hlast] at hnone hsome ⊢
        refine seq (does_dirlookup_dir .head hlk hdir (fun hno => ?_) fun k hk np hspn => ?_)
        · simp only [hno] at hnone
          exact seq (does_iunlockput_spare hun hsp (hnone trivial))
        · simp only [hk] at hnone hsome
          obtain ⟨hkn, hlive, -⟩ := Volume.lookup_some hk
          refine assume (c := (np = ip → (v.ent i k).inum = i) ∧ i < c.ninodes) ?_ ?_
          · exact fun s h => ⟨fun heq => h.known_eq (heq ▸ .head) .second, h.known_lt .second⟩
          rintro ⟨hsame, hlt⟩
          rw [Multiset.cons_swap]
          refine seq (does_iunlockput_spare hun (hsp.cons _) ?_)
          exact ih (fun h => (hsound h).ents i hlt hdir k hkn hlive) (hspn.tail hsp hsame) hnone hsome
    · simp only [if_pos hdir] at hnone ⊢
      exact seq (does_iunlockput_spare hun hsp (hnone trivial))

variable {p : Pid}

theorem cwd_refs_pos {t : Tables} {ip : ISlot} (h : t.cwd p = some ip) : 0 < t.refs ip := by
  have : 0 < (Finset.univ.filter fun q => t.cwd q = some ip).card :=
    Finset.card_pos.mpr ⟨p, by simp [h]⟩
  unfold Tables.refs
  omega

theorem does_namexStart {Q : ISlot → State → Prop} {held' : Refs}
    {locks' : Finset ISlot} (g : Good c num held locks s) (hcwd : (s.tables.cwd p).isSome)
    (hsound : ¬E (.panic .noType) → v.Sound c)
    (hQ : ∀ ip, Spare v s.tables held' (s.start p path) ip →
      (¬E (.panic .noType) → (v.dinode (s.start p path)).type ≠ 0) →
      ∀ s', GoodAt c num ((ip, s.start p path) ::ₘ held') locks' v s.tables s' → Q ip s') :
    Does c E (GoodAt c num held' locks' v s.tables) (namexStart p path) Q := by
  by_cases hroot : path.head? = some slash
  · have hstart : s.start p path = ROOTINO := if_pos hroot
    rw [hstart] at hQ
    simp only [namexStart, if_pos hroot]
    exact does_iget g.conf.1 fun ip hsp => hQ ip hsp fun h => (hsound h).root
  · obtain ⟨ip, hip⟩ := Option.isSome_iff_exists.mp hcwd
    have hpos := cwd_refs_pos hip
    have hstart : s.start p path = num ip := by
      rw [State.start, if_neg hroot, hip]
      exact g.home ip hpos
    rw [hstart] at hQ
    simp only [namexStart, if_neg hroot]
    refine seq (does_tables ?_)
    simp only [hip]
    exact assume (fun s' h => h.used hpos) fun hty =>
      seq (does_idup (.inr ⟨hpos, rfl⟩) fun hsp => hQ ip hsp fun _ => hty)

theorem does_namex {Q : Option (ISlot × Name) → State → Prop} {parent : Bool}
    {held' : Refs} {locks' : Finset ISlot} (g : Good c num held locks s)
    (hcwd : (s.tables.cwd p).isSome) (hfree : ¬E .hang → locks' = ∅)
    (hsound : ¬E (.panic .noType) → v.Sound c)
    (hnone : v.walk parent (elems (path.takeWhile (· != 0))) (s.start p (path.takeWhile (· != 0))) = none →
      ∀ s', GoodAt c num held' locks' v s.tables s' → Q none s')
    (hsome : ∀ ip i name, v.walk parent (elems (path.takeWhile (· != 0)))
        (s.start p (path.takeWhile (· != 0))) = some (i, name) →
      Spare v s.tables held' i ip → (¬E (.panic .noType) → (v.dinode i).type ≠ 0) →
      ∀ s', GoodAt c num ((ip, i) ::ₘ held') locks' v s.tables s' → Q (some (ip, name)) s') :
    Does c E (GoodAt c num held' locks' v s.tables) (namex p path parent) Q :=
  seq (does_namexStart g hcwd hsound fun _ hsp hty => does_namexLoop hfree hsound hty hsp hnone hsome)

theorem does_namei {Q : Option ISlot → State → Prop}
    (g : Good c num 0 ∅ s) (hcwd : (s.tables.cwd p).isSome) (hsound : ¬E (.panic .noType) → s.vol.Sound c)
    (hnone : ∀ s', GoodAt c num 0 ∅ s.vol s.tables s' → Q none s')
    (hsome : ∀ ip i, Spare s.vol s.tables 0 i ip →
      (¬E (.panic .noType) → (s.vol.dinode i).type ≠ 0) →
      ∀ s', GoodAt c num ((ip, i) ::ₘ 0) ∅ s.vol s.tables s' → Q (some ip) s') :
    Does c E (GoodAt c num 0 ∅ s.vol s.tables) (namei p path) Q :=
  seq (does_namex g hcwd (fun _ => rfl) hsound (fun _ => hnone) fun ip i _ _ => hsome ip i)

theorem resolve_canon {i : ℕ} (h : s.resolve true p path = some (i, name)) : Canon name :=
  elems_canon (zero_not_mem_cstring path) (Volume.walk_mem h)

end Xv6.Fs
