import Xv6.Fs.Paths

/-!
# Calls that fail

`open`, `link`, `unlink`, `mkdir`, `mknod` and `chdir` return -1 without having changed the volume,
the descriptors or the current directory: what they did before they found out is taken back.
-/

namespace Xv6.Fs

open Lib Lib.Prog

variable {c : Conf} {num : ISlot → ℕ} {s s' : State} {p : Pid} {call : Call}

def Call.onNames : Call → Bool
  | .open _ _ | .link _ _ | .unlink _ | .mkdir _ | .mknod _ _ _ | .chdir _ => true
  | _ => false

/-- The call is no `open` that creates a file without a slot to open it in. -/
def Call.HasSlots (s : State) (p : Pid) : Call → Prop
  | .open path omode => s.CanOpen p path omode
  | _ => True

instance : Tolerant fun _ => True := ⟨fun _ => trivial⟩

-- The other calls on names need no slot.
theorem other_slots {P R : Prop} (hP : P) : (True → P) ∧ (¬True → R) :=
  ⟨fun _ => hP, fun h => absurd trivial h⟩

theorem wp_undone (g : Good c num 0 ∅ s) (hen : call.enabled s.tables p = true)
    (hnames : call.onNames = true) :
    WP (perform c) (fun _ => True) (call.prog p) (fun r s' => r = -1 →
      (call.HasSlots s p → s'.vol = s.vol ∧ s'.tables = s.tables) ∧
        (¬call.HasSlots s p → s'.vol ≠ s.vol)) s := by
  have hcwd : (s.tables.cwd p).isSome = true := by
    cases call <;> simp_all [Call.enabled]
  have hsound : ¬True → s.vol.Sound c := fun h => absurd trivial h
  cases call with
  | «open» path omode =>
    exact wp_sysOpen g hcwd hsound fun r s' _ _ _ hundone => hundone
  | link old new =>
    exact wp_sysLink g hcwd (fun h => absurd trivial h) hsound fun r s' _ ht hundone _ _ hr =>
      other_slots ⟨hundone hr, ht⟩
  | unlink path =>
    exact wp_sysUnlink g hcwd (fun h => absurd trivial h) hsound fun r s' _ ht hundone _ hr =>
      other_slots ⟨hundone hr, ht⟩
  | mkdir path | mknod path major minor =>
    exact wp_create_call g hcwd hsound (by decide) fun r s' _ hundone _ hr => other_slots (hundone hr)
  | chdir path =>
    exact wp_sysChdir g hcwd hsound fun r s' _ _ hundone _ hr => other_slots (hundone hr)
  | _ => cases hnames

theorem failed_call_changes_nothing (g : Good c num 0 ∅ s) (hen : call.enabled s.tables p = true)
    (hnames : call.onNames = true) (hrun : (call.prog p).run (perform c) s = .ok (-1, s')) :
    (s'.vol = s.vol ∧ s'.tables = s.tables) ↔ call.HasSlots s p := by
  obtain ⟨hkept, hleft⟩ := wp_ok (wp_undone g hen hnames) hrun rfl
  exact ⟨fun hsame => by_contra fun hno => hleft hno hsame.1, hkept⟩

def openRun : List (Pid × Call) := List.replicate NOFILE (0, .open [47] O_RDONLY)

def openNew : Call := .open [47, 102] (O_CREATE ||| O_RDWR)

theorem open_leaves_file : ∃ s s', Runs.exec (step xv6Conf) (boot mkfs) openRun = some s ∧
    (openNew.prog 0).run (perform xv6Conf) s = .ok (-1, s') ∧
    s.vol.child ROOTINO [102] = none ∧ s'.vol.child ROOTINO [102] = some 2 ∧
    (s.vol.dinode 2).type = 0 ∧ (s'.vol.dinode 2).type = T_FILE := by
  obtain ⟨s, hs, hchild, hfree, r, hr, h1, hchild', htype⟩ :
      ∃ s ∈ Runs.exec (step xv6Conf) (boot mkfs) openRun,
        s.vol.child ROOTINO [102] = none ∧ (s.vol.dinode 2).type = 0 ∧
        ∃ r ∈ ((openNew.prog 0).run (perform xv6Conf) s).toOption,
          r.1 = -1 ∧ r.2.vol.child ROOTINO [102] = some 2 ∧ (r.2.vol.dinode 2).type = T_FILE := by
    decide +kernel
  cases hok : (openNew.prog 0).run (perform xv6Conf) s with
  | error f =>
    rw [hok] at hr
    cases hr
  | ok y =>
    rw [hok] at hr
    cases hr
    exact ⟨s, r.2, hs, by rw [← h1, hok], hchild, hchild', hfree, htype⟩

/-- `link("/", "/x")`: the old name is a directory. -/
theorem failed_call_changes_nothing_link :
    ∃ s', ((Call.link [47] [47, 120]).prog 0).run (perform xv6Conf) (boot mkfs) = .ok (-1, s') ∧
      s'.vol = (boot mkfs).vol ∧ s'.tables = (boot mkfs).tables := by
  have hrun : (((Call.link [47] [47, 120]).prog 0).run (perform xv6Conf) (boot mkfs)).toOption.map
      Prod.fst = some (-1) := by
    decide +kernel
  obtain ⟨s', hs'⟩ := run_ok_of_toOption hrun
  have g := (mkfs_image (c := xv6Conf) (by decide)).good
  exact ⟨s', hs', (failed_call_changes_nothing g rfl rfl hs').mpr trivial⟩

end Xv6.Fs
