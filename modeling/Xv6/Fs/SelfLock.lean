import Xv6.Fs.Directories
import Xv6.Fs.ReadWrite

/-!
# Waiting for a lock that the process itself holds

`acquiresleep` on a lock that the calling process already holds never returns: the fault `hang`, in
`ilock` and in `iput`.
-/

namespace Xv6.Fs

open Lib Lib.Prog Lib.Runs Relation Blocks

namespace Volume

variable {c : Conf} {v w : Volume} {d k x : ℕ}

theorem Turns.self_named (ht : Turns c v w x) (h : v.SelfNamed c) (hk : k < w.nents x)
    (hlive : (w.ent x k).inum ≠ 0) (hself : (w.ent x k).inum = x) :
    (w.ent x k).name = dotName ∨ (w.ent x k).name = dotdotName := by
  -- An entry that was there before, at a slot which is not written.
  have hold : v.Dir c x → w.ent x k = v.ent x k → k < v.nents x →
      (w.ent x k).name = dotName ∨ (w.ent x k).name = dotdotName := by
    intro hd hent hlt
    rw [hent] at hlive hself ⊢
    exact h x hd.1 hd.2 k hlt hlive hself
  cases ht with
  | kept hd hn hent => exact hold hd (hent k) (hn ▸ hk)
  | added i name hd hi hnew hp =>
    by_cases hslot : k = v.freeSlot x
    · rw [hslot, hp.self] at hself
      exact absurd hself hi
    · exact hold hd (hp.other k hslot) (hp.old hslot hk)
  | removed j name hd hdot hdotdot hj hp =>
    by_cases hslot : k = j
    · rw [hslot, hp.self] at hlive
      exact absurd rfl hlive
    · exact hold hd (hp.other k hslot) (hp.old hslot hk)
  | made a ha htwo hdot hdotdot =>
    rw [htwo] at hk
    interval_cases k
    · rw [hdot]
      exact .inl rfl
    · rw [hdotdot]
      exact .inr rfl

theorem SelfNamed.effect {target : Option (Bool × ℕ × Name)} (h : v.SelfNamed c) (hwf : v.WF c)
    (hc : c.ninodes ≤ 2 ^ 16) (he : Effect c target v w) : w.SelfNamed c := by
  refine he.preserves h (fun _ _ _ u _ hn => ?_) fun u u' hu hm => ?_
  · exact fun x hx hty k => (Turns.of_named hwf hc hn ⟨hx, hty⟩).self_named h
  · exact fun x hx hty k => (Turns.of_minor hm ⟨hx, hty⟩).self_named hu

theorem Tree.child_ne (t : v.Tree c) (hd : v.Linked c d) (hk : 2 ≤ k) (hlt : k < v.nents d) :
    (v.ent d k).inum ≠ d := by
  intro hself
  obtain ⟨hroot, hparent, -⟩ := t.parent d k hd hk hlt (hself.symm ▸ hd.1)
  rw [hself] at hroot hparent
  -- The parent of `d` is `d`, so no path from the root enters it.
  have hpath : ∀ x, ReflTransGen (v.Edge c) ROOTINO x → x ≠ d := by
    intro x hx
    induction hx with
    | refl => exact hroot.symm
    | @tail a b _ hab ih =>
      obtain ⟨ha, hb, j, hj, hjlt, hent⟩ := hab
      rintro rfl
      have hup := (t.parent a j ha hj hjlt (hent ▸ hb.1)).2.1
      rw [hent, hparent] at hup
      exact ih hup.symm
  exact hpath d (t.reach d hd) rfl

theorem Image.selfNamed (hv : v.Image c) : v.SelfNamed c := by
  intro d hd hdir k hk hlive hself
  have hisdir := hv.tree.dirs d ⟨hd, hdir⟩
  have hlt : k < 2 := by
    by_contra hge
    have hlinked : v.Linked c d := ⟨⟨hd, hdir⟩, hv.linked d hd (by rw [hdir]; decide)⟩
    exact hv.tree.child_ne hlinked (by omega) hk hself
  interval_cases k
  · rw [hisdir.dot]
    exact .inl rfl
  · exact .inr hisdir.dotdot.2

end Volume

theorem step_selfNamed {c : Conf} {s s' : State} {e : Pid × Call}
    (hs : (∃ num, Good c num 0 ∅ s) ∧ s.vol.SelfNamed c) (h : step c s e = some s') :
    (∃ num, Good c num 0 ∅ s') ∧ s'.vol.SelfNamed c := by
  obtain ⟨⟨num, g⟩, hself⟩ := hs
  obtain ⟨hgood, heff⟩ := step_spec g h
  exact ⟨hgood, hself.effect g.vol g.conf.2 heff⟩

def Wakeful (f : Fault) : Prop := Allowed false f ∧ f ≠ .hang

instance : Tolerant Wakeful := ⟨fun hp => ⟨allowed_panic hp, nofun⟩⟩

theorem wakeful_noType : Wakeful (.panic .noType) := ⟨⟨nofun, nofun, by decide⟩, nofun⟩

theorem Good.wakeful {c : Conf} {num : ISlot → ℕ} {s : State} {p : Pid} {call : Call} {f : Fault}
    (hgood : Good c num 0 ∅ s) (hself : s.vol.SelfNamed c) (hen : call.enabled s.tables p = true)
    (hforth : call.LinksForth s p) (hrun : (call.prog p).run (perform c) s = .error f) :
    Wakeful f := by
  have hw : WP (perform c) Wakeful (call.prog p) _ s :=
    wp_prog_faults hgood hen (fun _ => ⟨hforth, hself⟩) fun hno => absurd wakeful_noType hno
  exact wp_error hw hrun

theorem run_selfNamed {c : Conf} {v : Volume} {s : State} {evs : List (Pid × Call)}
    (hv : v.Image c) (hrun : Runs.exec (step c) (boot v) evs = some s) :
    (∃ num, Good c num 0 ∅ s) ∧ s.vol.SelfNamed c :=
  exec_invariant (step c) (fun _ _ _ => step_selfNamed) ⟨⟨_, hv.good⟩, hv.selfNamed⟩ hrun

def Stuck (f : Fault) : Prop := f = .hang ∨ ∃ m, f = .panic m

instance : Tolerant Stuck := ⟨fun _ => .inr ⟨_, rfl⟩⟩

theorem Good.stuck {c : Conf} {num : ISlot → ℕ} {s : State} {p : Pid} {call : Call}
    (hgood : Good c num 0 ∅ s) (hen : call.enabled s.tables p = true) (hback : ¬call.LinksForth s p) :
    ∃ f, (call.prog p).run (perform c) s = .error f ∧ Stuck f := by
  cases call with
  | link old new =>
    have hcwd : (s.tables.cwd p).isSome = true := by simp_all [Call.enabled]
    have hw : WP (perform c) Stuck ((Call.link old new).prog p) (fun _ _ => ¬s.LinksBack p old new) s :=
      wp_sysLink hgood hcwd (fun h => absurd (.inl rfl) h) (fun h => absurd (.inr ⟨_, rfl⟩) h)
        fun _ _ _ _ _ _ hforth => hforth
    cases hrun : ((Call.link old new).prog p).run (perform c) s with
    | error f => exact ⟨f, rfl, wp_error hw hrun⟩
    | ok r => exact absurd (wp_ok hw hrun) hback
  | _ => exact absurd trivial hback

instance (s : State) (p : Pid) (path : Path) : Decidable (s.LeadsBack p path) :=
  match hres : s.resolve true p path with
  | none => .isFalse fun ⟨_, _, h, _⟩ => nomatch hres.symm.trans h
  | some (d, name) =>
    match hk : s.vol.lookup d name with
    | none => .isFalse (by simp [State.LeadsBack, hres, hk])
    | some k => decidable_of_iff ((s.vol.ent d k).inum = d) (by simp [State.LeadsBack, hres, hk])

def subdirRun : List (Pid × Call) :=
  [(0, .open [47, 102] (O_CREATE ||| O_RDWR)), (0, .mkdir [47, 100])]

end Xv6.Fs
