import Xv6.Files.Table

/-!
# The pages of the pipes

A pipe page is taken from the free list when its two files are made, and goes back when the flags
in it say that both ends are closed.
-/

namespace Xv6.Files

open Lib Vm Function

variable {K : Image} {s t : State} {f g f0 f1 : FileSlot} {q : Frame}

structure Pipes (K : Image) (s : State) : Prop where
  nodup : s.kmem.freelist.Nodup
  free : ∀ q ∈ s.kmem.freelist, K.Managed q
  managed : ∀ {f q w}, (s.file f).object = some (.pipe q w) → K.Managed q
  apart : ∀ {f q w}, (s.file f).object = some (.pipe q w) → q ∉ s.kmem.freelist
  ends : ∀ {f g q w}, (s.file f).object = some (.pipe q w) → (s.file g).object = some (.pipe q w) →
    f = g
  flags : ∀ {f q w}, (s.file f).object = some (.pipe q w) →
    ∀ w', (s.pipe q).isOpen w' = true ↔ ∃ g, (s.file g).object = some (.pipe q w')

def State.Pool (s : State) (q : Frame) : Prop :=
  q ∈ s.kmem.freelist ∨ ∃ f w, (s.file f).object = some (.pipe q w)

structure SamePool (s t : State) : Prop where
  pool : ∀ q, t.Pool q ↔ s.Pool q
  page : ∀ q, ¬ s.Pool q → t.kmem.page q = s.kmem.page q

theorem SamePool.refl (s : State) : SamePool s s := ⟨fun _ => Iff.rfl, fun _ _ => rfl⟩

theorem SamePool.trans {u : State} (h : SamePool s t) (h' : SamePool t u) : SamePool s u where
  pool q := (h'.pool q).trans (h.pool q)
  page q hq := (h'.page q fun ht => hq ((h.pool q).mp ht)).trans (h.page q hq)

structure SamePipes (s t : State) : Prop where
  object : ∀ f q w, (t.file f).object = some (.pipe q w) ↔ (s.file f).object = some (.pipe q w)
  pipe : t.pipe = s.pipe
  kmem : t.kmem = s.kmem

theorem SamePipes.pool (h : SamePipes s t) : SamePool s t where
  pool q := by simp only [State.Pool, h.object, h.kmem]
  page q _ := by rw [h.kmem]

namespace Pipes

theorem congr (hs : Pipes K s) (h : SamePipes s t) : Pipes K t := by
  constructor
  all_goals simp only [h.object, h.pipe, h.kmem]
  · exact hs.nodup
  · exact hs.free
  · exact hs.managed
  · exact hs.apart
  · exact hs.ends
  · exact hs.flags

theorem isOpen_close (x : Pipe) (w w' : Bool) :
    (if w then { x with writeopen := false } else { x with readopen := false } : Pipe).isOpen w' =
      if w' = w then false else x.isOpen w' := by
  cases w <;> cases w' <;> rfl

structure Closing (s t : State) (f : FileSlot) (q : Frame) (w : Bool) : Prop where
  before : (s.file f).object = some (.pipe q w)
  after : (t.file f).object = none
  other : ∀ g ≠ f, t.file g = s.file g
  pipe : t.pipe = s.pipe
  kmem : t.kmem = s.kmem

theorem object_iff (hs : Pipes K s) {w : Bool} (h : Closing s t f q w) (g : FileSlot) (r : Frame)
    (v : Bool) : (t.file g).object = some (.pipe r v) ↔
      (s.file g).object = some (.pipe r v) ∧ ¬ (r = q ∧ v = w) := by
  by_cases hgf : g = f
  · subst hgf
    simp only [h.after, h.before, reduceCtorEq, false_iff, Option.some.injEq, Object.pipe.injEq]
    rintro ⟨⟨rfl, rfl⟩, hne⟩
    exact hne ⟨rfl, rfl⟩
  · rw [h.other g hgf]
    refine ⟨fun hg => ⟨hg, ?_⟩, And.left⟩
    rintro ⟨rfl, rfl⟩
    exact hgf (hs.ends hg h.before)

theorem flags_iff (hs : Pipes K s) {w : Bool} {x : Pipe} (h : Closing s t f q w)
    (hx : ∀ v, x.isOpen v = if v = w then false else (s.pipe q).isOpen v) {g : FileSlot} {r : Frame}
    {v : Bool} (hg : (s.file g).object = some (.pipe r v)) (v' : Bool) :
    (update s.pipe q x r).isOpen v' = true ↔
      ∃ g, (t.file g).object = some (.pipe r v') := by
  simp only [hs.object_iff h, exists_and_right]
  by_cases hr : r = q
  · subst hr
    rw [update_self, hx, ← hs.flags hg v']
    by_cases hv : v' = w <;> simp [hv]
  · rw [update_of_ne hr, hs.flags hg v']
    simp [hr]

theorem pipeclose (hs : Pipes K s) {w : Bool} (h : Closing s t f q w) :
    ∃ u, Files.pipeclose K t q w = .ok u ∧ Pipes K u ∧ SamePool s u ∧
      u.file = t.file ∧ u.state = t.state ∧ u.ofile = t.ofile ∧ u.life = t.life := by
  have hiff := hs.object_iff h
  have hx := isOpen_close (s.pipe q) w
  simp only [Files.pipeclose, h.pipe, h.kmem, kfree_of_managed (hs.managed h.before)]
  generalize (if w = true then ({ s.pipe q with writeopen := false } : Pipe)
    else { s.pipe q with readopen := false }) = x at hx ⊢
  have hflags := fun {g r v} => hs.flags_iff h hx (g := g) (r := r) (v := v)
  have hq := hflags h.before
  simp only [update_self] at hq
  by_cases hboth : x.readopen = false ∧ x.writeopen = false
  · rw [if_pos hboth]
    -- The last file of the pipe was closed: its page goes back.
    have hne : ∀ {g r v}, (t.file g).object = some (.pipe r v) → r ≠ q := by
      rintro g r v hg rfl
      have hopen := (hq v).mpr ⟨g, hg⟩
      cases v <;> simp [Pipe.isOpen, hboth] at hopen
    refine ⟨_, rfl, ?_, ?_, rfl, rfl, rfl, rfl⟩
    · constructor
      case nodup => exact List.nodup_cons.mpr ⟨hs.apart h.before, hs.nodup⟩
      case free =>
        intro r hr
        rcases List.mem_cons.mp hr with rfl | hr
        · exact hs.managed h.before
        · exact hs.free r hr
      case managed => exact fun hg => hs.managed ((hiff _ _ _).mp hg).1
      case apart =>
        intro g r v hg hmem
        rcases List.mem_cons.mp hmem with hr | hr
        · exact hne hg hr
        · exact hs.apart ((hiff _ _ _).mp hg).1 hr
      case ends => exact fun hg hg' => hs.ends ((hiff _ _ _).mp hg).1 ((hiff _ _ _).mp hg').1
      case flags => exact fun hg v' => hflags ((hiff _ _ _).mp hg).1 v'
    · constructor
      · intro r
        simp only [State.Pool, Kmem.mem_freed, hiff]
        constructor
        · rintro ((rfl | hr) | ⟨g, v, hg, -⟩)
          · exact .inr ⟨f, w, h.before⟩
          · exact .inl hr
          · exact .inr ⟨g, v, hg⟩
        · rintro (hr | ⟨g, v, hg⟩)
          · exact .inl (.inr hr)
          · by_cases hrq : r = q
            · exact .inl (.inl hrq)
            · exact .inr ⟨g, v, hg, fun h => hrq h.1⟩
      · intro r hr
        refine update_of_ne ?_ _ _
        rintro rfl
        exact hr (.inr ⟨f, w, h.before⟩)
  · rw [if_neg hboth]
    -- The other end is still open, so the pool does not lose the page.
    obtain ⟨g0, hg0⟩ : ∃ g, (t.file g).object = some (.pipe q !w) := by
      rw [← hq]
      have h0 := hx w
      cases w <;> simp [Pipe.isOpen] at h0 ⊢ <;> simpa [h0] using hboth
    refine ⟨_, rfl, ?_, ?_, rfl, rfl, rfl, rfl⟩
    · constructor
      case nodup => exact hs.nodup
      case free => exact hs.free
      case managed => exact fun hg => hs.managed ((hiff _ _ _).mp hg).1
      case apart => exact fun hg => hs.apart ((hiff _ _ _).mp hg).1
      case ends => exact fun hg hg' => hs.ends ((hiff _ _ _).mp hg).1 ((hiff _ _ _).mp hg').1
      case flags => exact fun hg v' => hflags ((hiff _ _ _).mp hg).1 v'
    · constructor
      · intro r
        simp only [State.Pool]
        constructor
        · rintro (hr | ⟨g, v, hg⟩)
          · exact .inl hr
          · exact .inr ⟨g, v, ((hiff _ _ _).mp hg).1⟩
        · rintro (hr | ⟨g, v, hg⟩)
          · exact .inl hr
          · by_cases hrq : r = q
            · exact .inr ⟨g0, !w, hrq ▸ hg0⟩
            · exact .inr ⟨g, v, (hiff _ _ _).mpr ⟨hg, fun h => hrq h.1⟩⟩
      · exact fun _ _ => rfl

theorem connect_object (s : State) (p : Frame) (hne : f0 ≠ f1) (g : FileSlot) :
    ((connect s p f0 f1).file g).object =
      if g = f0 then some (.pipe p false) else if g = f1 then some (.pipe p true)
      else (s.file g).object := by
  simp only [connect, State.record, State.setFile, update_apply]
  by_cases h1 : g = f1
  · subst h1
    simp [File.object, Ne.symm hne]
  · by_cases h0 : g = f0
    · subst h0
      simp [File.object, h1]
    · simp [h0, h1]

theorem connect {fs : List Frame} (hs : Pipes K s) (hne : f0 ≠ f1) (h0 : (s.file f0).object = none)
    (h1 : (s.file f1).object = none) (hfree : s.kmem.freelist = q :: fs) :
    Pipes K (Files.connect { s with kmem := { s.kmem with freelist := fs } } q f0 f1) ∧
      SamePool s (Files.connect { s with kmem := { s.kmem with freelist := fs } } q f0 f1) := by
  set t := Files.connect { s with kmem := { s.kmem with freelist := fs } } q f0 f1 with ht
  have hkmem : t.kmem = { s.kmem with freelist := fs } := rfl
  have hpipe : t.pipe = update s.pipe q { readopen := true, writeopen := true } := rfl
  have hobj := connect_object { s with kmem := { s.kmem with freelist := fs } } q hne
  rw [← ht] at hobj
  have hmem : q ∈ s.kmem.freelist := by
    rw [hfree]
    exact List.mem_cons_self
  have hsub : ∀ r ∈ fs, r ∈ s.kmem.freelist := by
    rw [hfree]
    exact fun r hr => List.mem_cons_of_mem _ hr
  have hnodup := hs.nodup
  rw [hfree, List.nodup_cons] at hnodup
  -- No file stands for an end of the new page yet.
  have hold : ∀ {g r v}, (s.file g).object = some (.pipe r v) → g ≠ f0 ∧ g ≠ f1 ∧ r ≠ q := by
    rintro g r v hg
    refine ⟨?_, ?_, ?_⟩
    · rintro rfl
      rw [h0] at hg
      cases hg
    · rintro rfl
      rw [h1] at hg
      cases hg
    · rintro rfl
      exact hs.apart hg hmem
  have hiff : ∀ g r v, (t.file g).object = some (.pipe r v) ↔
      (r = q ∧ g = if v then f1 else f0) ∨ (s.file g).object = some (.pipe r v) := by
    intro g r v
    rw [hobj]
    by_cases hg0 : g = f0
    · subst hg0
      simp only [if_true, h0, reduceCtorEq, or_false, Option.some.injEq, Object.pipe.injEq]
      cases v <;> simp [hne, eq_comm]
    · by_cases hg1 : g = f1
      · subst hg1
        simp only [hg0, if_true, if_false, h1, reduceCtorEq, or_false, Option.some.injEq,
          Object.pipe.injEq]
        cases v <;> simp [hg0, eq_comm]
      · simp only [hg0, hg1, if_false]
        cases v <;> simp [hg0, hg1]
  constructor
  · constructor
    case nodup => exact hnodup.2
    case free => exact fun r hr => hs.free r (hsub r hr)
    case managed =>
      intro g r v hg
      rcases (hiff g r v).mp hg with ⟨rfl, -⟩ | hg
      · exact hs.free r hmem
      · exact hs.managed hg
    case apart =>
      intro g r v hg
      rcases (hiff g r v).mp hg with ⟨rfl, -⟩ | hg
      · exact hnodup.1
      · exact fun hr => hs.apart hg (hsub r hr)
    case ends =>
      intro g g' r v hg hg'
      rcases (hiff g r v).mp hg with ⟨hr, rfl⟩ | hg <;> rcases (hiff g' r v).mp hg' with ⟨hr', rfl⟩ | hg'
      · rfl
      · exact absurd hr (hold hg').2.2
      · exact absurd hr' (hold hg).2.2
      · exact hs.ends hg hg'
    case flags =>
      intro g r v hg v'
      simp only [hpipe, hiff]
      by_cases hr : r = q
      · subst hr
        rw [update_self]
        cases v' <;> simp [Pipe.isOpen]
      · rw [update_of_ne hr]
        have hg' := ((hiff g r v).mp hg).resolve_left fun h => hr h.1
        simp only [hr, false_and, false_or]
        exact hs.flags hg' v'
  · constructor
    · intro r
      simp only [State.Pool, hiff, hkmem, hfree, List.mem_cons]
      constructor
      · rintro (hr | ⟨g, v, ⟨hr, -⟩ | hg⟩)
        · exact .inl (.inr hr)
        · exact .inl (.inl hr)
        · exact .inr ⟨g, v, hg⟩
      · rintro ((hr | hr) | ⟨g, v, hg⟩)
        · exact .inr ⟨f0, false, .inl ⟨hr, rfl⟩⟩
        · exact .inl hr
        · exact .inr ⟨g, v, .inr hg⟩
    · exact fun _ _ => rfl

end Pipes
end Xv6.Files
