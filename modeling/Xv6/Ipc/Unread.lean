import Xv6.Ipc.Pipe

/-!
# Writing to a pipe that nobody can read

`pipewrite` looks at `readopen` only when the pipe is full.
-/

namespace Xv6.Pipes

open Lib Lib.Monitor Function

variable {P : Type*} [DecidableEq P] {s t u : State P} {p q : P} {addr init : List Byte}

theorem body_frame (killed : Bool) (l : Loc) (x : Pipe P) :
    (x.readopen = false → ((body q killed l x).shared x).readopen = false) ∧
      (p ≠ q → ((body q killed l x).shared x).wrote p = x.wrote p) := by
  have hwritten : ∀ bs, p ≠ q → (x.written q bs).wrote p = x.wrote p := fun bs hp =>
    update_of_ne hp _ _
  cases l with
  | writeLoop addr i since =>
    simp only [body, pipewriteLoop]
    cases addr[i]? with
    | none => exact ⟨id, fun _ => rfl⟩
    | some b =>
      dsimp only
      split_ifs
      · exact ⟨id, hwritten _⟩
      · exact ⟨id, fun _ => rfl⟩
      · exact ⟨id, fun _ => rfl⟩
  | writeRet addr => exact ⟨id, hwritten _⟩
  | readWait n | readCopy n got =>
    simp only [body]
    split_ifs <;> exact ⟨id, fun _ => rfl⟩
  | close writable =>
    cases writable with
    | false => exact ⟨fun _ => rfl, fun _ => rfl⟩
    | true => exact ⟨id, fun _ => rfl⟩
  | ret _ | writeSleep _ _ | readRet _ | closeWake _ | closeRet => exact ⟨id, fun _ => rfl⟩

def Doomed (addr : List Byte) (place : Place Loc Chan) (x : Pipe P) : Prop :=
  x.readopen = false ∧ match place with
    | .wait l => l = .writeLoop addr 0 0
    | .inside l => ∃ i since, l = .writeLoop addr i since ∧ PIPESIZE + i < x.count + addr.length
    | .out l => l = .ret (-1)
    | .falling _ _ | .asleep _ _ => False

theorem Doomed.body {l : Loc} {x : Pipe P} (h : Doomed addr (.inside l) x) (hb : Bytes init [] x)
    (killed : Bool) : Doomed addr (body p killed l x).place ((body p killed l x).shared x) := by
  obtain ⟨hclosed, i, since, rfl, hlt⟩ := h
  have hbound := hb.bound
  have hget : addr[i]? = some addr[i] := List.getElem?_eq_getElem (by omega)
  simp only [Pipes.body, pipewriteLoop, hget, hclosed, true_or, if_true]
  cases hfull : x.full with
  | true => exact ⟨hclosed, rfl⟩
  | false =>
    have hcount := (Bytes.put (p := p) (b := addr[i]) hb hfull).2
    refine ⟨hclosed, i + 1, since + 1, rfl, ?_⟩
    change PIPESIZE + (i + 1) < (x.put p addr[i]).count + addr.length
    omega

theorem Doomed.step {e : Event P Loc} (h : Doomed addr (s.place p) s.shared) (hs : Sound init s)
    (hne : addr ≠ []) (hroom : NoRoom s e) (hcall : ∀ l, e ≠ .call p l)
    (hstep : Steps code s e t) : Doomed addr (t.place p) t.shared := by
  refine place_step h hs.mutex (fun _ l he => absurd he (hcall l)) (fun l he hp _ => ?_)
    (fun l hp => ?_) (fun c l hp => ?_) (fun c l hp => ?_) (fun q l hq hp => ?_) hstep
  · rw [hp] at h
    obtain ⟨hclosed, rfl⟩ := h
    simp only [he, NoRoom, hp] at hroom
    exact ⟨hclosed, 0, 0, rfl, hroom hne hclosed⟩
  · rw [hp] at h
    obtain ⟨i, since, rfl, -⟩ := h.2
    exact h.body (hs.guarded.held p _ hp).1 _
  · rw [hp] at h
    exact h.2.elim
  · rw [hp] at h
    exact h.2.elim
  · refine ⟨(body_frame (p := p) _ l _).1 h.1, ?_⟩
    have hplace := h.2
    cases hpl : s.place p with
    | inside m => exact absurd hpl (hp m)
    | out m | wait m | falling c m | asleep c m =>
      rw [hpl] at hplace
      exact hplace

def Filling (p : P) (addr w : List Byte) (place : Place Loc Chan) (x : Pipe P) : Prop :=
  (match place.loc with
    | .writeLoop a _ _ | .writeSleep a _ | .writeRet a => a = addr ∧ x.wrote p = w
    | .ret r => r = -1 ∨ r = addr.length ∧ x.wrote p = w ++ addr
    | _ => False) ∧
  ∀ since, place = .inside (.writeLoop addr 0 since) → x.readopen = false →
    PIPESIZE < x.count + addr.length

theorem Filling.body {w : List Byte} {l : Loc} {x : Pipe P} (h : Filling p addr w (.inside l) x)
    (killed : Bool) :
    Filling p addr w (Pipes.body p killed l x).place ((Pipes.body p killed l x).shared x) := by
  obtain ⟨hl, hearly⟩ := h
  cases l with
  | ret r | writeSleep a i => exact ⟨hl, fun _ h => by cases h⟩
  | writeLoop a i since =>
    obtain ⟨rfl, hw⟩ := hl
    simp only [Pipes.body, pipewriteLoop]
    cases a[i]? with
    | none => exact ⟨⟨rfl, hw⟩, fun _ h => by cases h⟩
    | some b =>
      dsimp only
      split_ifs
      · exact ⟨.inl rfl, fun _ h => by cases h⟩
      · exact ⟨⟨rfl, hw⟩, fun _ h => by cases h⟩
      · exact ⟨⟨rfl, hw⟩, fun _ h => by cases h⟩
  | writeRet a =>
    obtain ⟨rfl, hw⟩ := hl
    refine ⟨.inr ⟨rfl, ?_⟩, fun _ h => by cases h⟩
    change update x.wrote p _ p = _
    rw [update_self, hw]
  | readWait _ | readCopy _ _ | readRet _ | close _ | closeWake _ | closeRet => exact hl.elim

theorem Filling.step {w : List Byte} {e : Event P Loc} (h : Filling p addr w (s.place p) s.shared)
    (hs : Sound init s) (hne : addr ≠ []) (hroom : NoRoom s e) (hcall : ∀ l, e ≠ .call p l)
    (hstep : Steps code s e t) : Filling p addr w (t.place p) t.shared := by
  refine place_step h hs.mutex (fun _ l he => absurd he (hcall l)) (fun l he hp _ => ?_)
    (fun l hp => ?_) (fun c l hp => ?_) (fun c l hp => ?_) (fun q l hq hp => ?_) hstep
  · rw [hp] at h
    refine ⟨h.1, fun since hl => ?_⟩
    cases hl
    simp only [he, NoRoom, hp] at hroom
    exact hroom hne
  · rw [hp] at h
    exact h.body _
  · rw [hp] at h
    exact ⟨h.1, fun _ h => by cases h⟩
  · rw [hp] at h
    exact ⟨h.1, fun _ h => by cases h⟩
  · have hqp : p ≠ q := fun heq => hp l (heq ▸ hq)
    have hframe : ((code.body q (s.killed q) l s.shared).shared s.shared).wrote p =
        s.shared.wrote p := (body_frame _ l _).2 hqp
    refine ⟨?_, fun since hl => absurd hl (hp _)⟩
    rw [hframe]
    exact h.1

variable {r : Ring 32 Byte} {readopen writeopen : Bool} {es es₀ : List (Event P Loc)}

theorem exec_call {A : Place Loc Chan → Pipe P → Prop}
    (hstep : ∀ {s e t}, A (s.place p) s.shared → Sound init s → NoRoom s e →
      (∀ l, e ≠ .call p l) → Steps code s e t → A (t.place p) t.shared)
    (hs : Sound init t) (h : A (t.place p) t.shared)
    (hroom : Runs.Meets (Monitor.step code) NoRoom t es) (hown : ∀ l, .call p l ∉ es)
    (hrun : Runs.exec (Monitor.step code) t es = some u) :
    Sound init u ∧ A (u.place p) u.shared := by
  have hcall : Runs.Meets (Monitor.step code) (fun _ e => ∀ l, e ≠ .call p l) t es :=
    .of_forall _ (by rintro e he - l rfl; exact hown l he) t
  refine Runs.exec_preserves (Monitor.step code)
    (I := fun s => Sound init s ∧ A (s.place p) s.shared) ?_ ⟨hs, h⟩ (.and _ hroom hcall) hrun
  rintro s e t ⟨hs, h⟩ ⟨hroom, hcall⟩ hst
  exact ⟨hs.step hst, hstep h hs hroom hcall (step_cases hst)⟩

theorem Doomed.returns {l : Loc} (h : Doomed addr (u.place p) u.shared) (hs : Sound init u)
    (hne : addr ≠ []) (hp : u.place p = .inside l) :
    ∃ k v, Runs.exec (Monitor.step code) u (List.replicate k (.run p)) = some v ∧
      v.place p = .out (.ret (-1)) := by
  have hin := h.2
  rw [hp] at hin
  obtain ⟨i, since, rfl, hlt⟩ := hin
  have hbound := (hs.guarded.held p _ hp).1.bound
  obtain ⟨v, hv, hplace, -, -, hcount⟩ := exec_fill (PIPESIZE - u.shared.count) hp (by omega) (by omega)
  have hrest : ∀ e ∈ List.replicate (PIPESIZE - u.shared.count) (Event.run p : Event P Loc), e = .run p :=
    fun e he => List.eq_of_mem_replicate he
  have hd := (exec_call (fun h hs => Doomed.step h hs hne) hs h
    (.of_forall _ (fun e he _ => by rw [hrest e he]; trivial) u)
    (fun l hl => nomatch hrest _ hl) hv).2
  have hfull : v.shared.full = true := (full_iff _).mpr (by omega)
  have hget : addr[i + (PIPESIZE - u.shared.count)]? = some addr[i + (PIPESIZE - u.shared.count)] :=
    List.getElem?_eq_getElem (by omega)
  have hstep : Monitor.step code v (.run p) = some
      { v.set p (.out (.ret (-1))) with
        lock := none
        shared := v.shared.written p (addr.take (i + (PIPESIZE - u.shared.count))) } := by
    simp only [Monitor.step, hplace, code, Pipes.body, pipewriteLoop, hget, hfull, hd.1, true_or,
      if_true, act]
  have hone : Runs.exec (Monitor.step code) v [.run p] = some _ :=
    (Runs.exec_cons _).mpr ⟨_, hstep, rfl⟩
  have hrun := (Runs.exec_append _).mpr ⟨v, hv, hone⟩
  rw [← List.replicate_succ'] at hrun
  exact ⟨_, _, hrun, update_self _ _ _⟩

theorem pipewrite_unread (hr : r.count ≤ PIPESIZE)
    (hrun₀ : Runs.exec (Monitor.step code) (start r readopen writeopen) es₀ = some s)
    (hcall : Monitor.step code s (.call p (.writeLoop addr 0 0)) = some t)
    (hrun : Runs.exec (Monitor.step code) t es = some u) (hown : ∀ l, .call p l ∉ es)
    (hne : addr ≠ []) (hroom : Runs.Meets (Monitor.step code) NoRoom t es) :
    (s.shared.readopen = false →
      (∀ c l, u.place p ≠ .falling c l ∧ u.place p ≠ .asleep c l) ∧
      (∀ l, u.place p = .inside l →
        ∃ k v, Runs.exec (Monitor.step code) u (List.replicate k (.run p)) = some v ∧
          v.place p = .out (.ret (-1))) ∧
      ∀ l, u.place p = .out l → l = .ret (-1)) ∧
    (u.place p = .out (.ret addr.length) →
      (u.shared.inserted.filter (·.1 = p)).map Prod.snd =
        (s.shared.inserted.filter (·.1 = p)).map Prod.snd ++ addr ∧
      ∀ es₁ es₂ v since, es = es₁ ++ .run p :: es₂ →
        Runs.exec (Monitor.step code) t es₁ = some v →
        v.place p = .inside (.writeLoop addr 0 since) → v.shared.full = false →
        v.shared.readopen = true) := by
  have hs := Sound.run hr hrun₀
  have ht := hs.step hcall
  cases step_cases hcall with
  | call _ l₀ _ hp hl =>
    have hplace : (State.set s p (.wait (.writeLoop addr 0 0))).place p = .wait (.writeLoop addr 0 0) :=
      update_self _ _ _
    have hdoomed : ∀ {v w : State P} {fs}, Sound (r.contents PIPESIZE) v →
        Doomed addr (v.place p) v.shared → Runs.Meets (Monitor.step code) NoRoom v fs →
        (∀ l, .call p l ∉ fs) → Runs.exec (Monitor.step code) v fs = some w →
        Sound (r.contents PIPESIZE) w ∧ Doomed addr (w.place p) w.shared :=
      fun hv hd => exec_call (fun h hs => Doomed.step h hs hne) hv hd
    have hfilling : ∀ {w : State P} {fs}, Runs.Meets (Monitor.step code) NoRoom _ fs →
        (∀ l, .call p l ∉ fs) → Runs.exec (Monitor.step code) _ fs = some w →
        Sound (r.contents PIPESIZE) w ∧
          Filling p addr (s.shared.wrote p) (w.place p) w.shared :=
      exec_call (fun h hs => Filling.step h hs hne) ht (by
        rw [hplace]
        exact ⟨⟨rfl, rfl⟩, nofun⟩)
    refine ⟨fun hclosed => ?_, fun hret => ⟨?_, ?_⟩⟩
    · obtain ⟨hu, hd⟩ := hdoomed ht (by rw [hplace]; exact ⟨hclosed, rfl⟩) hroom hown hrun
      refine ⟨fun c l => ⟨fun hl => ?_, fun hl => ?_⟩, fun l hl => hd.returns hu hne hl, fun l hl => ?_⟩
      · exact (hl ▸ hd).2
      · exact (hl ▸ hd).2
      · exact (hl ▸ hd).2
    · obtain ⟨hu, hf⟩ := hfilling hroom hown hrun
      rw [hret] at hf
      have howns := hs.own p
      obtain ⟨n, rfl⟩ := hs.guarded.done p l₀ hp
      rw [hp] at howns
      have hownu := hu.own p
      rw [hret] at hownu
      unfold Own at howns hownu
      rcases hf.1 with hneg | ⟨-, hw⟩
      · have := Int.natCast_nonneg addr.length
        omega
      · rw [hownu, howns, hw]
        simp [Place.loc, Loc.progress]
    · rintro es₁ es₂ v since rfl hv hin -
      have hmid := hroom.of_append _ hv
      obtain ⟨w, hw, hrest⟩ := (Runs.exec_append _).mp hrun
      obtain rfl := Option.some.inj (hv.symm.trans hw)
      obtain ⟨hvs, hf⟩ := hfilling hroom.left (fun l hl => hown l (List.mem_append_left _ hl)) hv
      by_contra hopen
      rw [Bool.not_eq_true] at hopen
      have hd := (hdoomed hvs (by
        rw [hin]
        exact ⟨hopen, 0, since, rfl, hf.2 since hin hopen⟩) hmid
        (fun l hl => hown l (List.mem_append_right _ hl)) hrest).2
      rw [hret] at hd
      have := Loc.ret.inj hd.2
      omega

def nearlyFull : Ring 32 Byte := ⟨fun _ => 0, 0, 510⟩

theorem pipewrite_unread_nearlyFull :
    ∃ t u : State Bool, Monitor.step code (start nearlyFull false true)
        (.call true (.writeLoop [7, 8, 9] 0 0)) = some t ∧
      Runs.exec (Monitor.step code) t [.acquire true, .run true, .run true, .run true] = some u ∧
      ∃ l, u.place true = .out l ∧ l = .ret (-1) := by
  obtain ⟨u, hu, hout⟩ : ∃ u ∈ Runs.exec (Monitor.step code)
      (State.set (start nearlyFull false true : State Bool) true (.wait (.writeLoop [7, 8, 9] 0 0)))
      [.acquire true, .run true, .run true, .run true],
      u.place true = .out (u.place true).loc := by decide +kernel
  have hstart : Runs.exec (Monitor.step code) (start nearlyFull false true : State Bool) [] =
    some _ := rfl
  exact ⟨_, u, rfl, hu, _, hout, ((pipewrite_unread (by decide) hstart rfl hu (by simp) (by decide)
    (by decide +kernel)).1 rfl).2.2 _ hout⟩

theorem unread_write_succeeds :
    ∃ s : State Bool, Runs.exec (Monitor.step code) (start ⟨fun _ => 0, 0, 0⟩ false true)
        [.call true (.writeLoop [7] 0 0), .acquire true, .run true, .run true, .run true] = some s ∧
      s.place true = .out (.ret 1) ∧ s.shared.readopen = false := by
  change ∃ s ∈ Runs.exec _ _ _, _
  decide +kernel

end Xv6.Pipes
