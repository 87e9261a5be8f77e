import Xv6.Sched.Control

/-!
# Every process is in the queue of its own level

`wait` and a failed `fork` leave the entries of the slot they free in the queues, so a queue may
hold entries of dead processes and several entries of one slot.
-/

namespace Xv6.Sched
open Lib ProcState Kernel Function

section Lists

variable {α : Type*} {l : List α} {j : ℕ} {x p : α}

theorem mem_eraseIdx_of_ne (hj : j < l.length) (hp : l[j] = p) (hx : x ∈ l) (hne : x ≠ p) :
    x ∈ l.eraseIdx j := by
  obtain ⟨i, hi, rfl⟩ := List.getElem_of_mem hx
  rw [List.mem_eraseIdx_iff_getElem]
  refine ⟨i, hi, ?_, rfl⟩
  intro hij
  subst hij
  exact hne hp

theorem notMem_eraseIdx (hl : l.Nodup) (hj : j < l.length) : l[j] ∉ l.eraseIdx j := by
  intro h
  rw [List.mem_eraseIdx_iff_getElem] at h
  obtain ⟨i, hi, hne, heq⟩ := h
  exact hne ((hl.getElem_inj_iff).mp heq)

end Lists

structure Queued (k : Kernel) : Prop where
  cnt : ∀ l, 0 ≤ (k.q l).cnt
  mem : ∀ s, (k.proc s).state ≠ UNUSED → s ∈ (k.q (k.proc s).qno).toList
  pos : ∀ s, (k.proc s).state ≠ UNUSED → 0 < (k.proc s).pid
  range : ∀ s, 0 ≤ (k.proc s).pid ∧ (k.proc s).pid < k.nextpid
  inj : ∀ s t, (k.proc s).pid = (k.proc t).pid → (k.proc s).pid ≠ 0 → s = t
  found : k.missed = false

structure Findable (k : Kernel) (p : Slot) : Prop where
  cnt : ∀ l, 0 ≤ (k.q l).cnt
  mem : p ∈ (k.q (k.proc p).qno).toList
  sole : ∀ s, (k.proc s).pid = (k.proc p).pid → s = p

theorem Queued.findable {k : Kernel} {p : Slot} (hq : Queued k) (hp : (k.proc p).state ≠ UNUSED) :
    Findable k p where
  cnt := hq.cnt
  mem := hq.mem p hp
  sole s h := by
    have := hq.pos p hp
    exact hq.inj s p h (by omega)

structure Moved (k k' : Kernel) (p : Slot) (src dst : Level) : Prop where
  left : ∃ j, ∃ h : j < (k.q src).toList.length, (k.q src).toList[j] = p ∧
    (k'.q src).toList = (k.q src).toList.eraseIdx j
  joined : p ∈ (k.q dst).toList ∧ (k'.q dst).toList = (k.q dst).toList ∨
    p ∉ (k.q dst).toList ∧ (k'.q dst).toList = (k.q dst).toList ++ [p]
  other : ∀ l, l ≠ src → l ≠ dst → k'.q l = k.q l
  srcCnt : (k'.q src).cnt = (k.q src).cnt - 1
  dstCnt : 0 ≤ (k'.q dst).cnt
  srcOob : (k.q src).cnt ≤ 1000 → (k'.q src).oob = (k.q src).oob
  dstOob : (k'.q dst).cnt ≤ 1000 → (k'.q dst).oob = (k.q dst).oob
  missed : k'.missed = k.missed

section Move

variable {k : Kernel} {p s : Slot} {src dst : Level} {c c' : Cmp} {d : Scan} {ind : ℤ}

section

variable (hf : Findable k p)
include hf

theorem Findable.isProc_iff : k.isProc c p s = true ↔ s = p := by
  cases c with
  | ptr => simp [isProc]
  | pid =>
    simp only [isProc, beq_iff_eq]
    exact ⟨hf.sole s, fun h => by rw [h]⟩

theorem Findable.search_some
    (hsrc : (k.proc p).qno = src) : ∃ j : ℕ, (k.search src p c d).1 = some (j : ℤ) ∧
      ∃ h : j < (k.q src).toList.length, (k.q src).toList[j] = p := by
  have hs := search_found k src p c d
  cases hr : (k.search src p c d).1 with
  | none =>
    have := hs.miss hr p (hsrc ▸ hf.mem)
    rw [hf.isProc_iff.mpr rfl] at this
    cases this
  | some i =>
    obtain ⟨j, rfl, hj, hP⟩ := hs.hit i hr
    exact ⟨j, rfl, hj, hf.isProc_iff.mp hP⟩

theorem Findable.search_isNone : (k.search dst p c d).1.isNone = true ↔ p ∉ (k.q dst).toList := by
  have hs := search_found k dst p c d
  cases hr : (k.search dst p c d).1 with
  | none =>
    refine ⟨fun _ hmem => ?_, fun _ => rfl⟩
    have := hs.miss hr p hmem
    rw [hf.isProc_iff.mpr rfl] at this
    cases this
  | some i =>
    obtain ⟨j, rfl, hj, hP⟩ := hs.hit i hr
    refine ⟨(nomatch ·), fun h => absurd ?_ h⟩
    rw [← hf.isProc_iff.mp hP]
    exact List.getElem_mem hj

end

theorem setLevel_pid (t : Slot) : ((k.setLevel p src dst).proc t).pid = (k.proc t).pid := by
  simp only [setLevel, setProc_proc]
  split_ifs with h
  · rw [h]
  · rfl

theorem search_congr {k₁ : Kernel} (hq : k₁.q dst = k.q dst)
    (hpid : ∀ t, (k₁.proc t).pid = (k.proc t).pid) : k₁.search dst p c d = k.search dst p c d := by
  have hproc : k₁.isProc c p = k.isProc c p := by
    funext t
    cases c with
    | ptr => rfl
    | pid => simp only [isProc, hpid]
  cases d <;> simp only [search, hq, hproc]

theorem Findable.moved (hf : Findable k p) (hsrc : (k.proc p).qno = src) (hne : src ≠ dst) :
    Moved k (k.move p src dst c d ind c') p src dst := by
  obtain ⟨j, hj, hlen, hget⟩ := hf.search_some (c := c) (d := d) hsrc
  have hsame := search_same k src p c d
  have hlen' : j < (k.search src p c d).2.toList.length := by rwa [hsame.toList]
  -- The search in `dst` sees the queue and the pids of the state before the move.
  have hdst : ((k.takeOut src p c d ind).setLevel p src dst).search dst p c' .first =
      k.search dst p c' .first := by
    refine search_congr ?_ fun t => setLevel_pid t
    exact update_of_ne hne.symm _ _
  have hqsrc : (k.move p src dst c d ind c').q src = (k.search src p c d).2.removeAt j := by
    have h1 : (k.move p src dst c d ind c').q src = (k.takeOut src p c d ind).q src :=
      update_of_ne hne _ _
    rw [h1]
    simp [takeOut, setQ_q, hj]
  have hqdst : (k.move p src dst c d ind c').q dst =
      if (k.search dst p c' .first).1.isNone then (k.search dst p c' .first).2.push p
      else (k.search dst p c' .first).2 := by
    simp only [move, putIn, setQ_q, if_true, hdst]
  have hsame' := search_same k dst p c' .first
  have hcnt' : 0 ≤ (k.search dst p c' .first).2.cnt := hsame'.cnt ▸ hf.cnt dst
  have hnone : (k.search dst p c' .first).1.isNone = true ↔ p ∉ (k.q dst).toList :=
    hf.search_isNone
  refine ⟨⟨j, hlen, hget, ?_⟩, ?_, ?_, ?_, ?_, ?_, ?_, ?_⟩
  · rw [hqsrc, CountedArray.removeAt_toList _ hlen', hsame.toList]
  · rw [hqdst]
    by_cases hmem : p ∈ (k.q dst).toList
    · rw [if_neg fun h => hnone.mp h hmem]
      exact .inl ⟨hmem, hsame'.toList⟩
    · rw [if_pos (hnone.mpr hmem), CountedArray.push_toList _ _ hcnt', hsame'.toList]
      exact .inr ⟨hmem, rfl⟩
  · intro l hl hl'
    have h1 : (k.move p src dst c d ind c').q l = (k.takeOut src p c d ind).q l :=
      update_of_ne hl' _ _
    exact h1.trans (update_of_ne hl _ _)
  · rw [hqsrc, CountedArray.removeAt_cnt, hsame.cnt]
  · rw [hqdst]
    split_ifs
    · simp only [CountedArray.push_cnt]
      omega
    · exact hcnt'
  · intro hcap
    rw [hqsrc, CountedArray.removeAt_oob _ (by rw [hsame.cnt]; exact_mod_cast hcap), hsame.oob]
    exact_mod_cast hcap
  · rw [hqdst]
    have hoob := hsame'.oob
    split_ifs
    · intro hcap
      simp only [CountedArray.push_cnt] at hcap
      rw [CountedArray.push_oob _ _ hcnt' (by push_cast; omega), hoob]
      rw [← hsame'.cnt]
      push_cast
      omega
    · intro hcap
      rw [hoob]
      rw [← hsame'.cnt]
      exact_mod_cast hcap
  · have : (k.move p src dst c d ind c').missed =
      (k.missed || (k.search src p c d).1.isNone) := rfl
    rw [this, hj]
    simp

theorem Queued.moved (hq : Queued k) (hp : (k.proc p).state ≠ UNUSED)
    (hsrc : (k.proc p).qno = src) (hne : src ≠ dst) :
    Moved k (k.move p src dst c d ind c') p src dst := (hq.findable hp).moved hsrc hne

variable {k' : Kernel}

theorem Queued.of_quiet (hq : Queued k) (h : Quiet k k') : Queued k' where
  cnt l := (h.q l).cnt ▸ hq.cnt l
  mem s hs := by
    rw [h.qno, (h.q _).toList]
    exact hq.mem s (h.live s hs)
  pos s hs := by
    rcases h.pid s with hp | ⟨_, hu⟩
    · rw [hp]
      exact hq.pos s (h.live s hs)
    · exact absurd hu hs
  range s := by
    have hr := hq.range s
    rw [h.nextpid]
    rcases h.pid s with hp | ⟨hp, _⟩ <;> rw [hp]
    · exact hr
    · omega
  inj s t hst hne := by
    rcases h.pid s with hp | ⟨hp, _⟩
    · rcases h.pid t with hp' | ⟨hp', _⟩
      · rw [hp] at hne
        exact hq.inj s t (by rw [← hp, ← hp', hst]) hne
      · rw [hst, hp'] at hne
        exact absurd rfl hne
    · exact absurd hp hne
  found := h.missed.trans hq.found

theorem Moved.mem (h : Moved k k' p src dst) {l : Level}
    (hs : s ∈ (k.q l).toList) (hsp : s ≠ p) : s ∈ (k'.q l).toList := by
  by_cases hl : l = src
  · obtain ⟨j, hj, hget, heq⟩ := h.left
    rw [hl] at hs ⊢
    rw [heq]
    exact mem_eraseIdx_of_ne hj hget hs hsp
  · by_cases hl' : l = dst
    · rw [hl'] at hs ⊢
      rcases h.joined with ⟨_, heq⟩ | ⟨_, heq⟩ <;> rw [heq]
      · exact hs
      · exact List.mem_append_left _ hs
    · rw [h.other l hl hl']
      exact hs

theorem Moved.mem_of_mem (h : Moved k k' p src dst) {l : Level} (hs : s ∈ (k'.q l).toList)
    (hsp : s ≠ p) : s ∈ (k.q l).toList := by
  by_cases hl : l = src
  · obtain ⟨j, hj, hget, heq⟩ := h.left
    rw [hl] at hs ⊢
    rw [heq] at hs
    exact List.mem_of_mem_eraseIdx hs
  · by_cases hl' : l = dst
    · rw [hl'] at hs ⊢
      rcases h.joined with ⟨_, heq⟩ | ⟨_, heq⟩ <;> rw [heq] at hs
      · exact hs
      · simpa [hsp] using hs
    · rwa [h.other l hl hl'] at hs

theorem Moved.nodup (h : Moved k k' p src dst) {l : Level} (hl : (k.q l).toList.Nodup) :
    (k'.q l).toList.Nodup := by
  by_cases hsrc : l = src
  · obtain ⟨j, hj, hget, heq⟩ := h.left
    subst hsrc
    rw [heq]
    exact hl.eraseIdx j
  · by_cases hdst : l = dst
    · subst hdst
      rcases h.joined with ⟨_, heq⟩ | ⟨hp, heq⟩ <;> rw [heq]
      · exact hl
      · exact hl.append (List.nodup_singleton p) (by simpa using hp)
    · rwa [h.other l hsrc hdst]

theorem Moved.mem_dst (h : Moved k k' p src dst) : p ∈ (k'.q dst).toList := by
  rcases h.joined with ⟨hmem, heq⟩ | ⟨_, heq⟩ <;> rw [heq]
  · exact hmem
  · simp

theorem move_state (t : Slot) :
    ((k.move p src dst c d ind c').proc t).state = (k.proc t).state := by
  simp only [move_proc, setLevel, setProc_proc]
  split_ifs with h
  · rw [h]
  · rfl

theorem move_qno (t : Slot) : ((k.move p src dst c d ind c').proc t).qno =
    if t = p then dst else (k.proc t).qno := by
  simp only [move_proc, setLevel, setProc_proc]
  split_ifs <;> rfl

theorem Queued.move (hq : Queued k) (hp : (k.proc p).state ≠ UNUSED)
    (hsrc : (k.proc p).qno = src) (hne : src ≠ dst) : Queued (k.move p src dst c d ind c') := by
  have hm : Moved k (k.move p src dst c d ind c') p src dst := hq.moved hp hsrc hne
  have hpid : ∀ t, ((k.move p src dst c d ind c').proc t).pid = (k.proc t).pid := setLevel_pid
  refine ⟨fun l => ?_, fun s hs => ?_, fun s hs => ?_, fun s => ?_, fun s t => ?_, ?_⟩
  · by_cases hl : l = src
    · obtain ⟨j, hj, _⟩ := hm.left
      rw [CountedArray.length_toList] at hj
      rw [hl, hm.srcCnt]
      omega
    · by_cases hl' : l = dst
      · rw [hl']
        exact hm.dstCnt
      · rw [hm.other l hl hl']
        exact hq.cnt l
  · rw [move_state] at hs
    rw [move_qno]
    split_ifs with hsp
    · rw [hsp]
      exact hm.mem_dst
    · exact hm.mem (hq.mem s hs) hsp
  · rw [move_state] at hs
    rw [hpid]
    exact hq.pos s hs
  · rw [hpid]
    exact hq.range s
  · rw [hpid, hpid]
    exact hq.inj s t
  · exact hm.missed.trans hq.found

end Move

section Rotate

variable {k : Kernel} {p : Slot}

structure Rotated (k k' : Kernel) (p : Slot) : Prop where
  q4 : ∃ j, ∃ h : j < (k.q 4).toList.length, (k.q 4).toList[j] = p ∧
    (k'.q 4).toList = (k.q 4).toList.eraseIdx j ++ [p]
  first : (k'.q 4).toList = (k.q 4).toList.erase p ++ [p]
  other : ∀ l, l ≠ 4 → k'.q l = k.q l
  cnt : (k'.q 4).cnt = (k.q 4).cnt
  oob : (k.q 4).cnt < 1000 → (k'.q 4).oob = (k.q 4).oob
  missed : k'.missed = k.missed

theorem Findable.rotated (hf : Findable k p) (h4 : (k.proc p).qno = 4) :
    Rotated k (k.rotate4 p) p := by
  obtain ⟨j, hj, hlen, hget⟩ := hf.search_some (c := .ptr) (d := .first) h4
  have hsame := search_same k 4 p .ptr .first
  have hlen' : j < (k.search 4 p .ptr .first).2.toList.length := by rwa [hsame.toList]
  have hq4 : (k.rotate4 p).q 4 = (k.search 4 p .ptr .first).2.rotate j p := by
    simp [rotate4, setQ_q, hj]
  have hlist : ((k.rotate4 p).q 4).toList = (k.q 4).toList.eraseIdx j ++ [p] := by
    rw [hq4, CountedArray.rotate_toList _ _ hlen', hsame.toList]
  have hfirst : (k.q 4).toList.idxOf? p = some j := by
    have hidx := (CountedArray.findFirst_findIdx (k.isProc .ptr p) (k.q 4)).symm.trans hj
    obtain ⟨i, hi, hij⟩ := Option.map_eq_some_iff.mp hidx
    obtain rfl : i = j := by exact_mod_cast hij
    exact hi
  refine ⟨⟨j, hlen, hget, hlist⟩, ?_, fun l hl => update_of_ne hl _ _, ?_, fun hcap => ?_, ?_⟩
  · rw [hlist, List.erase_eq_eraseIdx, hfirst]
  · rw [hq4, CountedArray.rotate_cnt, hsame.cnt]
  · have hcap' : (k.q 4).cnt < (1000 : ℕ) := by exact_mod_cast hcap
    rw [hq4, CountedArray.rotate_oob _ _ hlen' (by rw [hsame.cnt]; exact hcap'),
      hsame.oob (le_of_lt hcap')]
  · have : (k.rotate4 p).missed = (k.missed || (k.search 4 p .ptr .first).1.isNone) := rfl
    rw [this, hj]
    simp

theorem Queued.rotated (hq : Queued k) (hp : (k.proc p).state ≠ UNUSED)
    (h4 : (k.proc p).qno = 4) : Rotated k (k.rotate4 p) p := (hq.findable hp).rotated h4

theorem rotate4_proc (t : Slot) : ((k.rotate4 p).proc t).state = (k.proc t).state ∧
    ((k.rotate4 p).proc t).pid = (k.proc t).pid ∧ ((k.rotate4 p).proc t).qno = (k.proc t).qno := by
  by_cases h : t = p
  · subst h
    simp [rotate4]
  · simp [rotate4, setProc_of_ne, h]

theorem Rotated.mem {k' : Kernel} (h : Rotated k k' p) {l : Level} {s : Slot}
    (hs : s ∈ (k.q l).toList) : s ∈ (k'.q l).toList := by
  by_cases hl : l = 4
  · obtain ⟨j, hj, hget, heq⟩ := h.q4
    rw [hl] at hs ⊢
    rw [heq, List.mem_append, List.mem_singleton]
    by_cases hsp : s = p
    · exact .inr hsp
    · exact .inl (mem_eraseIdx_of_ne hj hget hs hsp)
  · rw [h.other l hl]
    exact hs

theorem Rotated.perm {k' : Kernel} (h : Rotated k k' p) (l : Level) :
    ((k'.q l).toList).Perm (k.q l).toList := by
  by_cases hl : l = 4
  · obtain ⟨j, hj, hget, heq⟩ := h.q4
    subst hl
    rw [heq, ← hget]
    exact (List.perm_append_singleton _ _).trans (List.getElem_cons_eraseIdx_perm hj)
  · rw [h.other l hl]

theorem Queued.rotate4 (hq : Queued k) (hp : (k.proc p).state ≠ UNUSED)
    (h4 : (k.proc p).qno = 4) : Queued (k.rotate4 p) := by
  have hr := hq.rotated hp h4
  refine ⟨fun l => ?_, fun s hs => ?_, fun s hs => ?_, fun s => ?_, fun s t => ?_, ?_⟩
  · by_cases hl : l = 4
    · rw [hl, hr.cnt]
      exact hq.cnt 4
    · rw [hr.other l hl]
      exact hq.cnt l
  · rw [(rotate4_proc s).1] at hs
    rw [(rotate4_proc s).2.2]
    exact hr.mem (hq.mem s hs)
  · rw [(rotate4_proc s).1] at hs
    rw [(rotate4_proc s).2.1]
    exact hq.pos s hs
  · rw [(rotate4_proc s).2.1]
    exact hq.range s
  · rw [(rotate4_proc s).2.1, (rotate4_proc t).2.1]
    exact hq.inj s t
  · exact hr.missed.trans hq.found

end Rotate

theorem live_of_runs {x : Proc} (h : x.state = RUNNABLE ∨ x.state = RUNNING) :
    x.state ≠ UNUSED := by
  rcases h with h | h <;> rw [h] <;> decide

theorem Queued.micro {k k' : Kernel} (hq : Queued k) (h : Micro k k') : Queued k' := by
  cases h with
  | quiet h => exact hq.of_quiet h
  | move p src dst c d ind c' hp hsrc hne _ => exact hq.move (live_of_runs hp) hsrc hne
  | rotate p hp h4 => exact hq.rotate4 (live_of_runs hp) h4

theorem micros_preserve {I : Kernel → Prop} (hI : ∀ {k k'}, I k → Micro k k' → I k')
    {k k' : Kernel} (hk : I k) (h : Relation.ReflTransGen Micro k k') : I k' := by
  induction h with
  | refl => exact hk
  | tail _ hstep ih => exact hI ih hstep

section Alloc

variable {k : Kernel} {s : Slot}

theorem allocproc_self : ((k.allocproc s).proc s).state = EMBRYO ∧
    ((k.allocproc s).proc s).pid = k.nextpid ∧ ((k.allocproc s).proc s).qno = 0 := by
  simp [allocproc]

theorem allocproc_q (l : Level) :
    (k.allocproc s).q l = if l = 0 then (k.q 0).push s else k.q l := by
  simp only [allocproc, setQ_q, setProc_q]

theorem Queued.allocproc (hq : Queued k) (hpid : k.nextpid < 2 ^ 31 - 1) :
    Queued (k.allocproc s) := by
  obtain ⟨hstate, hself, hqno⟩ := allocproc_self (k := k) (s := s)
  have hnext : (k.allocproc s).nextpid = k.nextpid + 1 := by
    have := hq.range s
    exact int32_of_lt (by omega) (by omega)
  have hmono : ∀ l t, t ∈ (k.q l).toList → t ∈ ((k.allocproc s).q l).toList := by
    intro l t ht
    rw [allocproc_q]
    split_ifs with hl
    · rw [CountedArray.push_toList _ _ (hq.cnt 0)]
      exact List.mem_append_left _ (hl ▸ ht)
    · exact ht
  -- The new pid is larger than every pid in the table.
  have hfresh : ∀ t, t ≠ s → ((k.allocproc s).proc t).pid < k.nextpid := by
    intro t ht
    rw [allocproc_of_ne ht]
    exact (hq.range t).2
  refine ⟨fun l => ?_, fun t ht => ?_, fun t ht => ?_, fun t => ?_, fun t u htu hne => ?_, hq.found⟩
  · rw [allocproc_q]
    split_ifs
    · have := hq.cnt 0
      simp only [CountedArray.push_cnt]
      omega
    · exact hq.cnt l
  · by_cases hts : t = s
    · rw [hts, hqno, allocproc_q, if_pos rfl, CountedArray.push_toList _ _ (hq.cnt 0)]
      simp
    · rw [allocproc_of_ne hts] at ht ⊢
      exact hmono _ t (hq.mem t ht)
  · by_cases hts : t = s
    · have := hq.range s
      rw [hts, hself]
      omega
    · rw [allocproc_of_ne hts] at ht ⊢
      exact hq.pos t ht
  · rw [hnext]
    by_cases hts : t = s
    · have := hq.range s
      rw [hts, hself]
      omega
    · have := hq.range t
      rw [allocproc_of_ne hts]
      omega
  · by_cases hts : t = s <;> by_cases hus : u = s
    · rw [hts, hus]
    · have := hfresh u hus
      rw [hts, hself] at htu
      omega
    · have := hfresh t hts
      rw [hus, hself] at htu
      omega
    · rw [allocproc_of_ne hts] at htu hne
      rw [allocproc_of_ne hus] at htu
      exact hq.inj t u htu hne

end Alloc

def PidRoom (k : Kernel) (e : Event) : Prop := e = .alloc → k.nextpid < 2 ^ 31 - 1

instance (k : Kernel) (e : Event) : Decidable (PidRoom k e) :=
  inferInstanceAs (Decidable (_ → _))

theorem Queued.step {b : Build} {k k' : Kernel} {e : Event} (hc : Ctl k) (hq : Queued k)
    (hpid : PidRoom k e) (h : step b k e = some k') : Queued k' := by
  cases (step_effect hc h).2 with
  | alloc p s hu hs => exact (hq.allocproc (hpid rfl)).of_quiet (setKont_quiet _ _)
  | micros hm => exact micros_preserve Queued.micro hq hm

theorem boot_init (kstack pgdir : ℕ) : ((boot kstack pgdir).proc 0).state = RUNNABLE ∧
    ((boot kstack pgdir).proc 0).pid = 1 ∧ ((boot kstack pgdir).proc 0).qno = 0 := by
  simp only [boot, allocStack, setProc_self]
  split_ifs <;> simp [allocproc, image]

theorem boot_q (kstack pgdir : ℕ) (l : Level) :
    ((boot kstack pgdir).q l).toList = if l = 0 then [0] else [] := by
  simp only [boot, allocStack, setProc_q, allocproc_q]
  split_ifs <;> rfl

theorem boot_nextpid (kstack pgdir : ℕ) : (boot kstack pgdir).nextpid = 2 := by
  simp only [boot, allocStack, setProc_nextpid]
  rfl

theorem boot_queued (kstack pgdir : ℕ) : Queued (boot kstack pgdir) := by
  obtain ⟨hstate, hpid, hqno⟩ := boot_init kstack pgdir
  have hother : ∀ {s}, s ≠ 0 → ((boot kstack pgdir).proc s).pid = 0 ∧
      ((boot kstack pgdir).proc s).state = UNUSED := by
    intro s hs
    rw [boot_proc kstack pgdir hs]
    exact ⟨rfl, rfl⟩
  refine ⟨fun l => ?_, fun s hs => ?_, fun s hs => ?_, fun s => ?_, fun s t hst hne => ?_, rfl⟩
  · simp only [boot, allocStack, setProc_q, allocproc_q]
    split_ifs
    · decide
    · exact le_refl (0 : ℤ)
  · by_cases h0 : s = 0
    · rw [h0, hqno, boot_q]
      simp
    · exact absurd (hother h0).2 hs
  · by_cases h0 : s = 0
    · rw [h0, hpid]
      decide
    · exact absurd (hother h0).2 hs
  · rw [boot_nextpid]
    by_cases h0 : s = 0
    · rw [h0, hpid]
      decide
    · rw [(hother h0).1]
      decide
  · by_cases h0 : s = 0
    · by_cases h1 : t = 0
      · rw [h0, h1]
      · rw [h0, hpid, (hother h1).1] at hst
        cases hst
    · exact absurd (hother h0).1 hne

theorem run_queued {b : Build} {kstack pgdir : ℕ} {es : List Event} {k : Kernel}
    (hpid : Runs.Meets (step b) PidRoom (boot kstack pgdir) es)
    (hrun : Runs.exec (step b) (boot kstack pgdir) es = some k) : Ctl k ∧ Queued k :=
  Runs.exec_preserves (step b) (I := fun k => Ctl k ∧ Queued k)
    (fun _ _ _ hI hC h => ⟨(step_effect hI.1 h).1, hI.2.step hI.1 hC h⟩)
    ⟨boot_ctl _ _, boot_queued _ _⟩ hpid hrun

theorem queuePass_first (k : Kernel) (ls : List Level) : (∃ pre l post p, ls = pre ++ l :: post ∧
      (∀ m ∈ pre, ∀ s ∈ (k.q m).toList, (k.proc s).state ≠ RUNNABLE) ∧
      (k.q l).toList.find? (fun s => (k.proc s).state == RUNNABLE) = some p ∧
      (queuePass k ls).cpu = .running ∧ (queuePass k ls).cur = some p ∧
      ((queuePass k ls).proc p).state = RUNNING) ∨
    (∀ m ∈ ls, ∀ s ∈ (k.q m).toList, (k.proc s).state ≠ RUNNABLE) ∧
      (queuePass k ls).cpu = .idle := by
  induction ls generalizing k with
  | nil => exact .inr ⟨by simp, rfl⟩
  | cons l ls ih =>
    have hsame := (findRunnable_frame (k := k) l).1.q
    cases hr : k.findRunnable l with
    | mk r a =>
      have ha : (k.findRunnable l).2 = a := by rw [hr]
      rw [ha] at hsame
      have harr : a.arr = (k.q l).arr := by
        have := (hsame l).arr
        rwa [setQ_q, if_pos rfl] at this
      cases r with
      | some i =>
        have hi : (k.findRunnable l).1 = some i := by rw [hr]
        have hfind := CountedArray.findFirst_arr (fun s => (k.proc s).state == RUNNABLE) (k.q l)
        simp only [findRunnable] at hi
        rw [hi] at hfind
        refine .inl ⟨[], l, ls, (k.q l).arr i, rfl, by simp, hfind.symm, ?_⟩
        simp only [queuePass, hr, harr]
        exact ⟨rfl, rfl, dispatch_running _ _⟩
      | none =>
        have hnone := findRunnable_none (k := k) (l := l) (by rw [hr])
        have hpass : queuePass k (l :: ls) = queuePass (k.setQ l a) ls := by
          simp only [queuePass, hr]
        rw [hpass]
        have hlist : ∀ m, ((k.setQ l a).q m).toList = (k.q m).toList := fun m => (hsame m).toList
        rcases ih (k.setQ l a) with ⟨pre, l', post, p, hls, hpre, hfind, hd⟩ | ⟨hnot, hd⟩
        · refine .inl ⟨l :: pre, l', post, p, by rw [hls]; rfl, ?_, hlist l' ▸ hfind, hd⟩
          intro m hm
          rcases List.mem_cons.mp hm with rfl | hm
          · exact hnone
          · exact hlist m ▸ hpre m hm
        · refine .inr ⟨?_, hd⟩
          intro m hm
          rcases List.mem_cons.mp hm with rfl | hm
          · exact hnone
          · exact hlist m ▸ hnot m hm

theorem queuePass_spec (k : Kernel) (ls : List Level) : (∃ pre l post p, ls = pre ++ l :: post ∧
      (∀ m ∈ pre, ∀ s ∈ (k.q m).toList, (k.proc s).state ≠ RUNNABLE) ∧
      p ∈ (k.q l).toList ∧ (k.proc p).state = RUNNABLE ∧
      (queuePass k ls).cpu = .running ∧ (queuePass k ls).cur = some p ∧
      ((queuePass k ls).proc p).state = RUNNING) ∨
    (∀ m ∈ ls, ∀ s ∈ (k.q m).toList, (k.proc s).state ≠ RUNNABLE) ∧
      (queuePass k ls).cpu = .idle := by
  refine (queuePass_first k ls).imp_left ?_
  rintro ⟨pre, l, post, p, hls, hpre, hfind, hd⟩
  have hrun : (k.proc p).state = RUNNABLE := by simpa using List.find?_some hfind
  exact ⟨pre, l, post, p, hls, hpre, List.mem_of_find?_eq_some hfind, hrun, hd⟩

theorem mem_levels (l : Level) : l ∈ ([0, 1, 2, 3, 4] : List Level) := by
  fin_cases l <;> decide

/-- Entries of dead processes do not hide a RUNNABLE one from the scheduler. -/
theorem no_process_lost (kstack pgdir : ℕ) (es : List Event) (k : Kernel)
    (hpid : Runs.Meets (step .MLFQ) PidRoom (boot kstack pgdir) es)
    (hrun : Runs.exec (step .MLFQ) (boot kstack pgdir) es = some k) :
    (∀ s, (k.proc s).state ≠ UNUSED → s ∈ (k.q (k.proc s).qno).toList) ∧
      k.missed = false ∧
      (k.cpu = .idle → (∃ s, (k.proc s).state = RUNNABLE) →
        ∃ k' p, step .MLFQ k .schedule = some k' ∧ (k.proc p).state = RUNNABLE ∧
          k'.cpu = .running ∧ k'.cur = some p ∧ (k'.proc p).state = RUNNING) := by
  obtain ⟨_, hq⟩ := run_queued hpid hrun
  refine ⟨hq.mem, hq.found, fun hidle ⟨s, hs⟩ => ?_⟩
  have hstep : step .MLFQ k .schedule = some (queuePass k [0, 1, 2, 3, 4]) := by
    simp only [step, hidle, schedulePass]
  rcases queuePass_spec k [0, 1, 2, 3, 4] with ⟨_, _, _, p, _, _, _, hp, hd⟩ | ⟨hnot, _⟩
  · exact ⟨_, p, hstep, hp, hd⟩
  · have hmem := hq.mem s (by rw [hs]; decide)
    exact absurd hs (hnot _ (mem_levels _) s hmem)

def reuseRun : List Event :=
  [.schedule, .alloc, .stack 2, .copy 3, .run, .wait, .schedule, .exit, .schedule, .wait,
    .alloc, .stack 4, .copy 5, .run, .tick true]

theorem no_process_lost_reuseRun : ∃ k,
    Runs.exec (step .MLFQ) (boot 1 1) reuseRun = some k ∧
      (∀ s, (k.proc s).state ≠ UNUSED → s ∈ (k.q (k.proc s).qno).toList) ∧
      k.missed = false ∧
      (k.cpu = .idle → (∃ s, (k.proc s).state = RUNNABLE) →
        ∃ k' p, step .MLFQ k .schedule = some k' ∧ (k.proc p).state = RUNNABLE ∧
          k'.cpu = .running ∧ k'.cur = some p ∧ (k'.proc p).state = RUNNING) := by
  have h : (Runs.exec (step .MLFQ) (boot 1 1) reuseRun).isSome := by decide +kernel
  obtain ⟨k, hk⟩ := Option.isSome_iff_exists.mp h
  exact ⟨k, hk, no_process_lost 1 1 reuseRun k (by decide +kernel) hk⟩

/-- The moves from one queue to another, each with its own loops in the source. -/
def moves : List (Level × Level × (Kernel → Slot → Kernel)) :=
  [(1, 0, age1), (2, 1, age2), (3, 2, age3), (4, 3, age4),
    (0, 1, demote0), (1, 2, demote1), (2, 3, demote2), (3, 4, demote3)]

theorem queue_moves_agree {k : Kernel} {p : Slot} (hcnt : ∀ l, 0 ≤ (k.q l).cnt ∧ (k.q l).cnt < 1000)
    (hmem : p ∈ (k.q (k.proc p).qno).toList)
    (hsole : ∀ s, (k.proc s).pid = (k.proc p).pid → s = p) :
    (∀ m ∈ moves, (k.proc p).qno = m.1 → Moved k (m.2.2 k p) p m.1 m.2.1) ∧
      ((k.proc p).qno = 4 → Rotated k (k.rotate4 p) p) ∧
      (∀ m ∈ moves, (k.proc p).qno = m.1 → ∀ l, ((m.2.2 k p).q l).oob = (k.q l).oob) ∧
      ((k.proc p).qno = 4 → ∀ l, ((k.rotate4 p).q l).oob = (k.q l).oob) := by
  have hf : Findable k p := ⟨fun l => (hcnt l).1, hmem, hsole⟩
  have hmoved : ∀ m ∈ moves, (k.proc p).qno = m.1 → Moved k (m.2.2 k p) p m.1 m.2.1 := by
    intro m hm hl
    simp only [moves, List.mem_cons, List.not_mem_nil, or_false] at hm
    rcases hm with rfl | rfl | rfl | rfl | rfl | rfl | rfl | rfl <;> exact hf.moved hl (by decide)
  refine ⟨hmoved, hf.rotated, fun m hm hl l => ?_, fun h4 l => ?_⟩
  · have h := hmoved m hm hl
    by_cases hsrc : l = m.1
    · subst hsrc
      exact h.srcOob (hcnt _).2.le
    by_cases hdst : l = m.2.1
    · subst hdst
      refine h.dstOob ?_
      have hlen : ((m.2.2 k p).q m.2.1).toList.length ≤ (k.q m.2.1).toList.length + 1 := by
        rcases h.joined with ⟨-, hj⟩ | ⟨-, hj⟩ <;> rw [hj]
        · exact Nat.le_succ _
        · exact List.length_append.le
      rw [CountedArray.length_toList, CountedArray.length_toList] at hlen
      have := (hcnt m.2.1).2
      have := h.dstCnt
      omega
    · rw [h.other l hsrc hdst]
  · by_cases hl : l = 4
    · subst hl
      exact (hf.rotated h4).oob (hcnt 4).2
    · rw [(hf.rotated h4).other l hl]

theorem queue_moves_agree_reuseRun : ∃ k, Runs.exec (step .MLFQ) (boot 1 1) reuseRun = some k ∧
    (k.proc 0).qno = 1 ∧ Moved k (k.age1 0) 0 1 0 := by
  obtain ⟨k, hk, hq, hcnt, hmem, hsole⟩ : ∃ k ∈ Runs.exec (step .MLFQ) (boot 1 1) reuseRun,
      (k.proc 0).qno = 1 ∧ (∀ l, 0 ≤ (k.q l).cnt ∧ (k.q l).cnt < 1000) ∧
      0 ∈ (k.q (k.proc 0).qno).toList ∧ ∀ s, (k.proc s).pid = (k.proc 0).pid → s = 0 := by
    decide +kernel
  exact ⟨k, hk, hq, (queue_moves_agree hcnt hmem hsole).1 (1, 0, age1) (by simp [moves]) hq⟩

end Xv6.Sched
