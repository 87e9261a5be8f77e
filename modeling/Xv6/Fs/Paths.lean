import Xv6.Fs.Links

/-!
# Path resolution

The elements of a path are the runs of bytes between its slashes, each cut to `DIRSIZ` bytes.
-/

namespace Xv6.Fs

open Lib Lib.Prog
open Triple (seq)

def components (path : Path) : List Path := (path.splitOnP (· == slash)).filter (· ≠ [])

inductive Skips : Path → List Name → Prop
  | done {path : Path} (h : skipelem path = none) : Skips path []
  | elem {path rest : Path} {name : Name} {names : List Name}
      (h : skipelem path = some (name, rest)) (hrest : Skips rest names) : Skips path (name :: names)

@[simp] theorem components_nil : components [] = [] := rfl

@[simp] theorem components_slash (path : Path) : components (slash :: path) = components path := by
  simp [components, List.splitOnP_cons_eq_if_modifyHead]

theorem components_dropSlashes (path : Path) :
    components (path.dropWhile (· == slash)) = components path := by
  induction path with
  | nil => rfl
  | cons b path ih =>
    by_cases hb : b = slash
    · subst hb
      exact ih.trans (components_slash path).symm
    · rw [List.dropWhile_cons_of_neg (by simpa using hb)]

theorem splitOnP_eq_cons (path : Path) :
    path.splitOnP (· == slash) = path.takeWhile (· != slash) ::
      ((path.dropWhile (· != slash)).tail?.map fun rest => rest.splitOnP (· == slash)).getD [] := by
  induction path with
  | nil => rfl
  | cons b path ih =>
    rw [List.splitOnP_cons_eq_if_modifyHead]
    by_cases hb : b = slash
    · simp [hb]
    · have htake : (b :: path).takeWhile (· != slash) = b :: path.takeWhile (· != slash) :=
        List.takeWhile_cons_of_pos (by simpa using hb)
      have hdrop : (b :: path).dropWhile (· != slash) = path.dropWhile (· != slash) :=
        List.dropWhile_cons_of_pos (by simpa using hb)
      rw [if_neg (by simpa using hb), ih, htake, hdrop, List.modifyHead_cons]

theorem components_cons {b : Byte} (hb : b ≠ slash) (path : Path) :
    components (b :: path) = (b :: path).takeWhile (· != slash) ::
      components ((b :: path).dropWhile (· != slash)) := by
  have hne : (b :: path).takeWhile (· != slash) ≠ [] := by
    rw [List.takeWhile_cons_of_pos (by simpa using hb)]
    exact List.cons_ne_nil _ _
  have hhead := List.head?_dropWhile_not (· != slash) (b :: path)
  rw [components, splitOnP_eq_cons, List.filter_cons_of_pos (by simpa using hne)]
  cases hrest : (b :: path).dropWhile (· != slash) with
  | nil => rfl
  | cons x rest =>
    rw [hrest] at hhead
    have hx : x = slash := by simpa using hhead
    rw [hx, components_slash]
    rfl

theorem skipelem_some {path rest : Path} {name : Name} (h : skipelem path = some (name, rest)) :
    rest.length < path.length ∧ ∃ run, components path = run :: components rest ∧
      name = run.take DIRSIZ := by
  have hdrop := components_dropSlashes path
  have hlen := (List.dropWhile_sublist (· == slash) (l := path)).length_le
  have hhead := List.head?_dropWhile_not (· == slash) path
  unfold skipelem at h
  split at h
  · cases h
  · next b cs heq =>
    rw [heq] at hdrop hlen hhead
    have hb : b ≠ slash := by simpa using hhead
    simp only [Option.some.injEq, Prod.mk.injEq] at h
    obtain ⟨rfl, rfl⟩ := h
    refine ⟨?_, _, ?_, rfl⟩
    · have h1 := (List.dropWhile_sublist (· == slash)
        (l := (b :: cs).dropWhile (· != slash))).length_le
      have h2 := (List.dropWhile_sublist (· != slash) (l := cs)).length_le
      rw [List.dropWhile_cons_of_pos (by simpa using hb)] at h1 ⊢
      rw [List.length_cons] at hlen
      omega
    · rw [← hdrop, components_cons hb, components_dropSlashes]

theorem skipelem_none {path : Path} (h : skipelem path = none) : components path = [] := by
  unfold skipelem at h
  split at h
  · next heq => rw [← components_dropSlashes, heq, components_nil]
  · cases h

theorem pathElems_eq {n : ℕ} {path : Path} (hn : path.length ≤ n) :
    Skips path (pathElems n path) ∧ pathElems n path = (components path).map (List.take DIRSIZ) := by
  induction n generalizing path with
  | zero =>
    rw [List.length_eq_zero_iff.mp (Nat.le_zero.mp hn)]
    exact ⟨.done rfl, rfl⟩
  | succ n ih =>
    rw [pathElems]
    cases hskip : skipelem path with
    | none =>
      rw [skipelem_none hskip]
      exact ⟨.done hskip, rfl⟩
    | some r =>
      obtain ⟨hlen, run, hrun, hname⟩ := skipelem_some hskip
      obtain ⟨h1, h2⟩ := ih (show r.2.length ≤ n by omega)
      refine ⟨.elem hskip h1, ?_⟩
      dsimp only
      rw [hrun, h2, hname, List.map_cons]

theorem elems_eq (path : Path) :
    Skips path (elems path) ∧ elems path = (components path).map (List.take DIRSIZ) :=
  pathElems_eq le_rfl

namespace Volume

variable {v : Volume} {d e : ℕ} {name : Name} {names : List Name}

def child (v : Volume) (d : ℕ) (name : Name) : Option ℕ :=
  if (v.dinode d).type = T_DIR then (v.lookup d name).map fun k => (v.ent d k).inum else none

def descend (v : Volume) (d : ℕ) (names : List Name) : Option ℕ := names.foldlM v.child d

theorem child_none : v.child d name = none ↔ (v.dinode d).type ≠ T_DIR ∨ v.lookup d name = none := by
  unfold child
  split_ifs with h
  · simp [h]
  · exact ⟨fun _ => .inl h, fun _ => rfl⟩

theorem descend_cons : v.descend d (name :: names) = (v.child d name).bind fun e => v.descend e names :=
  List.foldlM_cons

theorem descend_append {names' : List Name} :
    v.descend d (names ++ names') = (v.descend d names).bind fun e => v.descend e names' :=
  List.foldlM_append

theorem descend_none : v.descend d names = none ↔ ∃ pre name post e, names = pre ++ name :: post ∧
    v.descend d pre = some e ∧ ((v.dinode e).type ≠ T_DIR ∨ v.lookup e name = none) := by
  constructor
  · intro h
    induction names generalizing d with
    | nil => cases h
    | cons name names ih =>
      rw [descend_cons] at h
      cases hc : v.child d name with
      | none => exact ⟨[], name, names, d, rfl, rfl, child_none.mp hc⟩
      | some e =>
        rw [hc] at h
        obtain ⟨pre, m, post, e', rfl, hpre, hfail⟩ := ih h
        refine ⟨name :: pre, m, post, e', rfl, ?_, hfail⟩
        rw [descend_cons, hc]
        exact hpre
  · rintro ⟨pre, name, post, e, rfl, hpre, hfail⟩
    rw [descend_append, hpre, Option.bind_some, descend_cons, child_none.mpr hfail, Option.bind_none]

theorem walk_eq_descend : v.walk false names d = (v.descend d names).map fun e => (e, []) := by
  induction names generalizing d with
  | nil => rfl
  | cons name names ih =>
    rw [walk, descend_cons, child]
    by_cases hty : (v.dinode d).type = T_DIR
    · rw [if_neg (not_not.mpr hty), if_neg (fun h => by cases h.1), if_pos hty]
      cases v.lookup d name with
      | none => rfl
      | some k => exact ih
    · rw [if_pos hty, if_neg hty]
      rfl

theorem walk_eq_parent : v.walk true names d =
    (names.getLast?).bind fun name => (v.descend d names.dropLast).bind fun e =>
      if (v.dinode e).type = T_DIR then some (e, name) else none := by
  induction names generalizing d with
  | nil => rfl
  | cons name names ih =>
    rw [walk]
    cases names with
    | nil =>
      rw [if_pos (show true = true ∧ ([] : List Name) = [] from ⟨rfl, rfl⟩)]
      exact ite_not _ _ _
    | cons m names =>
      rw [List.getLast?_cons_cons, List.dropLast_cons_cons, descend_cons, child]
      by_cases hty : (v.dinode d).type = T_DIR
      · rw [if_neg (not_not.mpr hty), if_neg (fun h => by cases h.2), if_pos hty]
        cases v.lookup d name with
        | none => cases (m :: names).getLast? <;> rfl
        | some k => exact ih
      · rw [if_pos hty, if_neg hty]
        cases (m :: names).getLast? <;> rfl

theorem descend_of_parent (h : v.walk true names d = some (e, name)) :
    v.descend d names = v.child e name := by
  rw [walk_eq_parent, Option.bind_eq_some_iff] at h
  obtain ⟨last, hlast, h⟩ := h
  obtain ⟨e', he, h⟩ := Option.bind_eq_some_iff.mp h
  split_ifs at h
  cases h
  have hnames : names = names.dropLast ++ [name] := by
    rw [List.dropLast_append_getLast?]
    exact hlast
  rw [hnames, descend_append, he, Option.bind_some, descend_cons]
  cases v.child e name <;> rfl

end Volume

variable {c : Conf} {num : ISlot → ℕ} {s : State} {p : Pid}

abbrev cstring (path : Path) : Path := path.takeWhile (· != 0)

def Stops (c : Conf) (v : Volume) (f : Fault) : Prop :=
  f = .panic .igetNoInodes ∨ (f = .panic .noType ∧ ¬ v.Sound c)

instance (v : Volume) : CacheFull (Stops c v) := ⟨.inl rfl⟩

theorem sound_of_stops {v : Volume} (h : ¬ Stops c v (.panic .noType)) : v.Sound c := by
  by_contra hs
  exact h (.inr ⟨rfl, hs⟩)

def parentLookup (p : Pid) (path : Path) : FsProg (Option ISlot) := do
  match ← nameiparent p path with
  | none => Pure.pure none
  | some (dp, name) => do
    ilock dp
    let r ← dirlookup dp name
    iunlockput dp
    Pure.pure (r.map (·.1))

section

variable (g : Good c num 0 ∅ s) (hcwd : (s.tables.cwd p).isSome) (path : Path)
include g hcwd path

theorem wp_namei_descend : WP (perform c) (Stops c s.vol) (namei p path) (fun r s' => s'.vol = s.vol ∧
      r.map (fun ip => (s'.cache ip).inum) =
        s.vol.descend (s.start p (cstring path)) (elems (cstring path))) s := by
  refine wp_of_triple ⟨g, rfl, rfl⟩ (seq (does_namex g hcwd (fun _ => rfl) sound_of_stops
    (fun hres s' h => ⟨h.vol, ?_⟩) fun ip i name hres _ _ s' h => ⟨h.vol, ?_⟩))
  · rw [Volume.walk_eq_descend, Option.map_eq_none_iff] at hres
    exact hres.symm
  · rw [Volume.walk_eq_descend, Option.map_eq_some_iff] at hres
    obtain ⟨e, he, heq⟩ := hres
    cases heq
    exact (congrArg some (h.good.inum _ (Multiset.mem_cons_self _ _))).trans he.symm

theorem wp_nameiparent_resolve : WP (perform c) (Stops c s.vol) (nameiparent p path) (fun r s' => s'.vol = s.vol ∧
      r.map (fun x => ((s'.cache x.1).inum, x.2)) = s.resolve true p path) s := by
  refine wp_of_triple ⟨g, rfl, rfl⟩ (does_namex g hcwd (fun _ => rfl) sound_of_stops
    (fun hres s' h => ⟨h.vol, hres.symm⟩) fun ip i name hres _ _ s' h => ⟨h.vol, ?_⟩)
  rw [State.resolve, hres, Option.map_some, h.good.inum _ (Multiset.mem_cons_self _ _)]

theorem wp_parentLookup : WP (perform c) (Stops c s.vol) (parentLookup p path) (fun r s' => s'.vol = s.vol ∧
      ∀ d name, s.resolve true p path = some (d, name) →
        r.map (fun ip => (s'.cache ip).inum) = s.vol.child d name) s := by
  refine wp_of_triple ⟨g, rfl, rfl⟩ (seq (does_namex g hcwd (fun _ => rfl) sound_of_stops
    (fun hres s' h => ⟨h.vol, fun d name heq => ?_⟩) fun dp d name hres hsp _ => ?_))
  · rw [State.resolve, hres] at heq
    cases heq
  have hdir : (s.vol.dinode d).type = T_DIR := Volume.walk_parent hres
  refine seq (does_ilock .head (fun _ => Finset.notMem_empty dp) (fun _ => by rw [hdir]; decide)
    fun hun _ => seq (does_dirlookup_dir .head (Finset.mem_insert_self _ _) hdir
      (fun hno => seq (does_iunlockput_spare hun hsp fun s' h => ⟨h.vol, fun d' name' heq => ?_⟩))
      fun k hk np _ => ?_))
  · rw [State.resolve, hres] at heq
    cases heq
    rw [Volume.child, if_pos hdir, hno]
    rfl
  · rw [Multiset.cons_swap]
    refine seq (does_iunlockput_spare hun (hsp.cons _) fun s' h => ⟨h.vol, fun d' name' heq => ?_⟩)
    rw [State.resolve, hres] at heq
    cases heq
    rw [Volume.child, if_pos hdir, hk]
    exact congrArg some (h.good.inum _ (Multiset.mem_cons_self _ _))

end

theorem path_resolution (g : Good c num 0 ∅ s) (hcwd : (s.tables.cwd p).isSome) (path : Path) :
    (Skips (cstring path) (elems (cstring path)) ∧
      elems (cstring path) = (components (cstring path)).map (List.take DIRSIZ)) ∧
    ((∀ r s', (namei p path).run (perform c) s = .ok (r, s') → s'.vol = s.vol ∧
        r.map (fun ip => (s'.cache ip).inum) =
          s.vol.descend (s.start p (cstring path)) (elems (cstring path))) ∧
      (∀ f, (namei p path).run (perform c) s = .error f → Stops c s.vol f) ∧
      (s.vol.descend (s.start p (cstring path)) (elems (cstring path)) = none ↔
        ∃ pre name post e, elems (cstring path) = pre ++ name :: post ∧
          s.vol.descend (s.start p (cstring path)) pre = some e ∧
          ((s.vol.dinode e).type ≠ T_DIR ∨ s.vol.lookup e name = none))) ∧
    ((∀ r s', (nameiparent p path).run (perform c) s = .ok (r, s') → s'.vol = s.vol ∧
        r.map (fun x => ((s'.cache x.1).inum, x.2)) =
          (elems (cstring path)).getLast?.bind fun name =>
            (s.vol.descend (s.start p (cstring path)) (elems (cstring path)).dropLast).bind fun e =>
              if (s.vol.dinode e).type = T_DIR then some (e, name) else none) ∧
      (∀ f, (nameiparent p path).run (perform c) s = .error f → Stops c s.vol f)) ∧
    (∀ d name, s.resolve true p path = some (d, name) →
      (∀ r s', (parentLookup p path).run (perform c) s = .ok (r, s') → s'.vol = s.vol ∧
        r.map (fun ip => (s'.cache ip).inum) =
          s.vol.descend (s.start p (cstring path)) (elems (cstring path))) ∧
      (∀ f, (parentLookup p path).run (perform c) s = .error f → Stops c s.vol f)) := by
  have hn := wp_namei_descend g hcwd path
  have hparent := wp_nameiparent_resolve g hcwd path
  have hlookup := wp_parentLookup g hcwd path
  refine ⟨elems_eq _, ⟨fun r s' h => ?_, fun f h => wp_error hn h, Volume.descend_none⟩,
    ⟨fun r s' h => ?_, fun f h => wp_error hparent h⟩, fun d name hres =>
    ⟨fun r s' h => ?_, fun f h => wp_error hlookup h⟩⟩
  · obtain ⟨hv, hr⟩ := wp_ok hn h
    exact ⟨hv, hr⟩
  · rw [← Volume.walk_eq_parent]
    obtain ⟨hv, hr⟩ := wp_ok hparent h
    exact ⟨hv, hr⟩
  · rw [Volume.descend_of_parent hres]
    obtain ⟨hv, hr⟩ := wp_ok hlookup h
    exact ⟨hv, hr d name hres⟩

theorem run_ok_of_toOption {α : Type} {x : Except Fault (α × State)} {r : α}
    (h : x.toOption.map Prod.fst = some r) : ∃ s', x = .ok (r, s') := by
  cases x with
  | error f => cases h
  | ok y => exact ⟨y.2, by rw [← Option.some.inj h]⟩

/-- The parent `/d/f` of the last element is a file. -/
theorem nameiparent_of_file : ∃ s s', Runs.exec (step xv6Conf) (boot mkfs) namedRun = some s ∧
    elems [47, 100, 47, 102, 47, 120] = [[100], [102], [120]] ∧
    s.vol.descend ROOTINO [[100], [102]] = some 3 ∧
    (nameiparent 0 [47, 100, 47, 102, 47, 120]).run (perform xv6Conf) s = .ok (none, s') := by
  obtain ⟨s, hs, hfile, hparent⟩ : ∃ s ∈ Runs.exec (step xv6Conf) (boot mkfs) namedRun,
      s.vol.descend ROOTINO [[100], [102]] = some 3 ∧
      ((nameiparent 0 [47, 100, 47, 102, 47, 120]).run (perform xv6Conf) s).toOption.map Prod.fst =
        some none := by decide +kernel
  obtain ⟨s', hs'⟩ := run_ok_of_toOption hparent
  exact ⟨s, s', hs, by decide, hfile, hs'⟩

theorem path_resolution_dot : ∃ ip s', (namei 0 [47, 47, 46]).run (perform xv6Conf) (boot mkfs) =
    .ok (some ip, s') ∧ (s'.cache ip).inum = ROOTINO := by
  have hrun : ((namei 0 [47, 47, 46]).run (perform xv6Conf) (boot mkfs)).toOption.map Prod.fst =
      some (some 0) := by
    decide +kernel
  have hres : (boot mkfs).vol.descend ROOTINO [[46]] = some ROOTINO := by
    decide +kernel
  obtain ⟨s', hs'⟩ := run_ok_of_toOption hrun
  have hcwd : ((boot mkfs).tables.cwd 0).isSome := rfl
  have hall := path_resolution (mkfs_image (c := xv6Conf) (by decide)).good hcwd [47, 47, 46]
  obtain ⟨-, hr⟩ := hall.2.1.1 _ _ hs'
  exact ⟨0, s', hs', Option.some.inj (hr.trans hres)⟩

end Xv6.Fs
