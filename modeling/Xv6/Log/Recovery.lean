import Xv6.Log.Model

/-!
# Crash atomicity of the redo log

The disk is in one of three phases while a transaction is committed: the header on disk is empty
and nothing has been installed, the header names the transaction and the log holds its blocks, or
the header is empty again and everything is installed.
-/

namespace Xv6.RedoLog
open Lib Lib.CrashStore Machine
open Function (update_of_ne update_self)

theorem putBlocks_word_below (bs : List ℕ) (i : ℕ) (hb : Block) {off : ℕ}
    (h : off + 4 ≤ 4 * (i + 1)) : (putBlocks i bs hb).word off = hb.word off := by
  induction bs generalizing i hb with
  | nil => rfl
  | cons b bs ih =>
    rw [putBlocks, ih _ _ (by omega), Bytes.word_setWord_of_disjoint _ _ (Or.inl (by omega))]

theorem putBlocks_word (bs : List ℕ) (i : ℕ) (hb : Block) (hfit : 4 * (i + bs.length + 1) ≤ BSIZE)
    {j : ℕ} (hj : j < bs.length) :
    (putBlocks i bs hb).word (4 * (i + j + 1)) = BitVec.ofNat 32 bs[j] := by
  induction bs generalizing i j hb with
  | nil => simp at hj
  | cons b bs ih =>
    rw [List.length_cons] at hfit hj
    rw [putBlocks]
    cases j with
    | zero =>
      rw [putBlocks_word_below _ _ _ (by omega), Nat.add_zero]
      exact Bytes.word_setWord _ _ (by omega)
    | succ j =>
      have hidx : i + (j + 1) + 1 = i + 1 + j + 1 := by omega
      rw [hidx]
      exact ih (i + 1) _ (by omega) (by omega)

theorem putHeader_word_zero (lh : List ℕ) (hb : Block) :
    (putHeader lh hb).word 0 = BitVec.ofNat 32 lh.length := by
  rw [putHeader, putBlocks_word_below _ _ _ (by omega)]
  exact Bytes.word_setWord _ _ (by decide)

theorem headerN_putHeader (lh : List ℕ) (hb : Block) (hn : lh.length ≤ LOGSIZE) :
    headerN (putHeader lh hb) = lh.length := by
  simp only [LOGSIZE, MAXOPBLOCKS] at hn
  rw [headerN, putHeader_word_zero, BitVec.toInt_ofNat']
  exact Int.bmod_eq_of_le (by omega) (by omega)

theorem getHeader_putHeader (lh : List ℕ) (hb : Block) (hn : lh.length ≤ LOGSIZE)
    (hlt : ∀ b ∈ lh, b < 2 ^ 32) : getHeader (putHeader lh hb) = lh := by
  apply List.ext_getElem
  · simp [getHeader, headerN_putHeader lh hb hn]
  · intro j h₁ h₂
    have hw : (putHeader lh hb).word (4 * (j + 1)) = BitVec.ofNat 32 lh[j] := by
      have hfit : 4 * (0 + lh.length + 1) ≤ BSIZE := by
        simp only [LOGSIZE, MAXOPBLOCKS, BSIZE] at hn ⊢
        omega
      simpa only [putHeader, Nat.zero_add] using putBlocks_word lh 0 _ hfit h₂
    have hj : lh[j] < 2 ^ 32 := hlt _ (List.getElem_mem h₂)
    simp only [getHeader, List.getElem_map, List.getElem_range, headerBlock, hw]
    rw [BitVec.toNat_ofNat, Nat.mod_eq_of_lt hj]

theorem getHeader_of_headerN {hb : Block} (h : headerN hb = 0) : getHeader hb = [] := by
  simp [getHeader, h]

def bwrites (m : Machine) (ws : List (ℕ × Block)) : Machine :=
  { m with
    cache := applyWrites m.cache ws
    disk := applyWrites m.disk ws
    issued := m.issued ++ ws }

theorem bwrite_eq_bwrites (m : Machine) (b : ℕ) (data : Block) :
    m.bwrite b data = bwrites m [(b, data)] := rfl

theorem bwrites_bwrites (m : Machine) (ws vs : List (ℕ × Block)) :
    bwrites (bwrites m ws) vs = bwrites m (ws ++ vs) := by
  simp [bwrites]

theorem bwrites_setLh (m : Machine) (ws : List (ℕ × Block)) (lh : List ℕ) :
    (bwrites m ws).setLh lh = bwrites (m.setLh lh) ws := rfl

def logCopies (start : ℕ) (new : ℕ → Block) : ℕ → List ℕ → List (ℕ × Block)
  | _, [] => []
  | tail, b :: bs => (start + tail + 1, new b) :: logCopies start new (tail + 1) bs

def homeCopies (new : ℕ → Block) (bs : List ℕ) : List (ℕ × Block) := bs.map fun b => (b, new b)

theorem logCopies_length (start : ℕ) (new : ℕ → Block) (tail : ℕ) (bs : List ℕ) :
    (logCopies start new tail bs).length = bs.length := by
  induction bs generalizing tail with
  | nil => rfl
  | cons b bs ih => simp [logCopies, ih]

theorem mem_logCopies {start : ℕ} {new : ℕ → Block} {tail : ℕ} {bs : List ℕ} {a : ℕ}
    (h : a ∈ (logCopies start new tail bs).map Prod.fst) :
    start + tail + 1 ≤ a ∧ a ≤ start + tail + bs.length := by
  induction bs generalizing tail with
  | nil => simp [logCopies] at h
  | cons b bs ih =>
    simp only [logCopies, List.map_cons, List.mem_cons] at h
    rw [List.length_cons]
    rcases h with rfl | h
    · omega
    · have := ih h
      omega

theorem logCopies_apply (start : ℕ) (new : ℕ → Block) (tail : ℕ) (bs : List ℕ) (d : ℕ → Block)
    {j : ℕ} (hj : j < bs.length) :
    applyWrites d (logCopies start new tail bs) (start + tail + j + 1) = new bs[j] := by
  induction bs generalizing tail j d with
  | nil => simp at hj
  | cons b bs ih =>
    rw [logCopies, applyWrites_cons]
    cases j with
    | zero =>
      rw [applyWrites_of_notMem, Nat.add_zero, update_self]
      · rfl
      · intro hmem
        have := (mem_logCopies hmem).1
        omega
    | succ j =>
      have hidx : start + tail + (j + 1) + 1 = start + (tail + 1) + j + 1 := by omega
      rw [hidx]
      exact ih (tail + 1) _ (by simpa using hj)

theorem writeLogLoop_eq (new : ℕ → Block) (bs : List ℕ) (tail : ℕ) (m : Machine)
    (hcache : ∀ b ∈ bs, m.cache b = new b)
    (hout : ∀ b ∈ bs, b ≤ m.log.start ∨ m.log.start + tail + bs.length < b) :
    writeLogLoop tail bs m = bwrites m (logCopies m.log.start new tail bs) := by
  induction bs generalizing tail m with
  | nil => simp [writeLogLoop, logCopies, bwrites]
  | cons b bs ih =>
    have hb : m.bread b = new b := hcache b (by simp)
    rw [writeLogLoop, hb, bwrite_eq_bwrites, ih, bwrites_bwrites]
    · rfl
    · intro c hc
      have hne : c ≠ m.log.start + tail + 1 := by
        have := hout c (by simp [hc])
        rw [List.length_cons] at this
        omega
      simp only [bwrites, applyWrites_cons, applyWrites_nil, update_of_ne hne]
      exact hcache c (by simp [hc])
    · intro c hc
      have := hout c (by simp [hc])
      rw [List.length_cons] at this
      simp only [bwrites]
      omega

theorem installTransLoop_eq (new : ℕ → Block) (bs : List ℕ) (tail : ℕ) (m : Machine)
    (hlog : ∀ j (hj : j < bs.length), m.cache (m.log.start + tail + j + 1) = new bs[j])
    (hout : ∀ b ∈ bs, b ≤ m.log.start ∨ m.log.start + tail + bs.length < b) :
    installTransLoop tail bs m = bwrites m (homeCopies new bs) := by
  induction bs generalizing tail m with
  | nil => simp [installTransLoop, homeCopies, bwrites]
  | cons b bs ih =>
    have hb : m.bread (m.log.start + tail + 1) = new b := hlog 0 (by simp)
    have hbout := hout b (by simp)
    rw [List.length_cons] at hbout
    rw [installTransLoop, hb, bwrite_eq_bwrites, ih, bwrites_bwrites]
    · rfl
    · intro j hj
      have hne : m.log.start + (tail + 1) + j + 1 ≠ b := by omega
      simp only [bwrites, applyWrites_cons, applyWrites_nil, update_of_ne hne]
      have hidx : m.log.start + (tail + 1) + j + 1 = m.log.start + tail + (j + 1) + 1 := by omega
      rw [hidx]
      exact hlog (j + 1) (by simpa using hj)
    · intro c hc
      have := hout c (by simp [hc])
      rw [List.length_cons] at this
      simp only [bwrites]
      omega

def InLog (start size b : ℕ) : Prop := start ≤ b ∧ b < start + size

instance (start size b : ℕ) : Decidable (InLog start size b) :=
  inferInstanceAs (Decidable (_ ∧ _))

structure Txn (start size : ℕ) where
  blocks : List ℕ
  new : ℕ → Block
  length_lt : blocks.length < size
  length_le : blocks.length ≤ LOGSIZE
  outside : ∀ b ∈ blocks, ¬ InLog start size b
  word : ∀ b ∈ blocks, b < 2 ^ 32

namespace Txn

variable {start size : ℕ} (t : Txn start size) (old : ℕ → Block)

def Rest (d : ℕ → Block) : Prop := ∀ b, ¬ InLog start size b → b ∉ t.blocks → d b = old b

/-- The header on disk is empty and every home block holds its contents in `v`. -/
def Settled (v d : ℕ → Block) : Prop :=
  headerN (d start) = 0 ∧ (∀ b ∈ t.blocks, d b = v b) ∧ t.Rest old d

def Logged (d : ℕ → Block) : Prop :=
  getHeader (d start) = t.blocks ∧
    (∀ j (hj : j < t.blocks.length), d (start + j + 1) = t.new t.blocks[j]) ∧ t.Rest old d

variable {t old}

theorem start_inLog (t : Txn start size) : InLog start size start :=
  ⟨le_rfl, by have := t.length_lt; omega⟩

theorem copy_inLog (t : Txn start size) {j : ℕ} (hj : j < t.blocks.length) :
    InLog start size (start + j + 1) :=
  ⟨by omega, by have := t.length_lt; omega⟩

theorem outside_bounds (t : Txn start size) {b : ℕ} (hb : b ∈ t.blocks) :
    b ≤ start ∨ start + 0 + t.blocks.length < b := by
  have hout := t.outside b hb
  have hlt := t.length_lt
  unfold InLog at hout
  omega

theorem ne_of_inLog (t : Txn start size) {a b : ℕ} (ha : InLog start size a)
    (hb : b ∈ t.blocks) : a ≠ b := by
  rintro rfl
  exact t.outside a hb ha

theorem homeCopies_notMem (t : Txn start size) {a : ℕ} (ha : InLog start size a) (k : ℕ) :
    a ∉ ((homeCopies t.new t.blocks).take k).map Prod.fst := by
  intro hmem
  rw [List.map_take] at hmem
  have hmem := List.mem_of_mem_take hmem
  simp only [homeCopies, List.map_map, List.mem_map, Function.comp_apply] at hmem
  obtain ⟨b, hb, hba⟩ := hmem
  exact t.ne_of_inLog ha hb hba.symm

theorem Rest.homeCopies (k : ℕ) {d : ℕ → Block} (h : t.Rest old d) :
    t.Rest old (applyWrites d ((homeCopies t.new t.blocks).take k)) := by
  intro b hb hmem
  rw [applyWrites_of_notMem, h b hb hmem]
  intro hin
  rw [List.map_take] at hin
  have hin := List.mem_of_mem_take hin
  simp only [RedoLog.homeCopies, List.map_map, List.mem_map, Function.comp_apply] at hin
  obtain ⟨c, hc, rfl⟩ := hin
  exact hmem hc

theorem Rest.header {d : ℕ → Block} (h : t.Rest old d) (hb : Block) :
    t.Rest old (Function.update d start hb) := by
  intro b hout hmem
  have hne : b ≠ start := by
    rintro rfl
    exact hout t.start_inLog
  rw [update_of_ne hne, h b hout hmem]

theorem Logged.homeCopies (k : ℕ) {d : ℕ → Block} (h : t.Logged old d) :
    t.Logged old (applyWrites d ((homeCopies t.new t.blocks).take k)) := by
  obtain ⟨hhead, hcopies, hrest⟩ := h
  refine ⟨?_, fun j hj => ?_, hrest.homeCopies k⟩
  · rw [applyWrites_of_notMem (t.homeCopies_notMem t.start_inLog k)]
    exact hhead
  · rw [applyWrites_of_notMem (t.homeCopies_notMem (t.copy_inLog hj) k)]
    exact hcopies j hj

theorem Logged.installed {d : ℕ → Block} (h : t.Logged old d) {hb : Block} (hn : headerN hb = 0) :
    t.Settled old t.new (applyWrites d (RedoLog.homeCopies t.new t.blocks ++ [(start, hb)])) := by
  rw [applyWrites_append, applyWrites_cons, applyWrites_nil]
  refine ⟨by simpa using hn, fun b hb' => ?_, ?_⟩
  · have hne : b ≠ start := (t.ne_of_inLog t.start_inLog hb').symm
    rw [update_of_ne hne]
    exact applyWrites_of_mem hb'
  · have hall := Logged.homeCopies t.blocks.length h
    rw [List.take_of_length_le (by simp [RedoLog.homeCopies])] at hall
    exact Rest.header hall.2.2 hb

end Txn

theorem headerN_putHeader_nil (hb : Block) : headerN (putHeader [] hb) = 0 := by
  simpa using headerN_putHeader [] hb (by simp)

theorem recoverWrites_of_empty {start size : ℕ} {d : ℕ → Block} (h : headerN (d start) = 0) :
    recoverWrites start size d = [(start, putHeader [] (d start))] := by
  simp [recoverWrites, recoverFromLog, readHead, boot, bread, getHeader_of_headerN h, setLh,
    installTrans, installTransLoop, writeHead, bwrite]

theorem recoverWrites_of_logged {start size : ℕ} {t : Txn start size} {old d : ℕ → Block}
    (h : t.Logged old d) : recoverWrites start size d =
      homeCopies t.new t.blocks ++ [(start, putHeader [] (d start))] := by
  obtain ⟨hhead, hcopies, -⟩ := h
  have hread : readHead (boot start size d) = (boot start size d).setLh t.blocks := by
    rw [readHead, ← hhead]
    rfl
  have hinstall : installTrans ((boot start size d).setLh t.blocks) =
      bwrites ((boot start size d).setLh t.blocks) (homeCopies t.new t.blocks) := by
    apply installTransLoop_eq
    · intro j hj
      have hidx : start + 0 + j + 1 = start + j + 1 := by omega
      exact (congrArg d hidx).trans (hcopies j hj)
    · exact fun b hb => t.outside_bounds hb
  have hstart : applyWrites d (homeCopies t.new t.blocks) start = d start := by
    have hnot := t.homeCopies_notMem t.start_inLog t.blocks.length
    rw [List.take_of_length_le (by simp [homeCopies])] at hnot
    exact applyWrites_of_notMem hnot
  rw [recoverWrites, recoverFromLog, hread, hinstall, bwrites_setLh]
  simp [writeHead, bwrite, bread, bwrites, setLh, boot, hstart]

theorem take_append_singleton {α : Type*} (xs : List α) (x : α) (k : ℕ) :
    (k ≤ xs.length ∧ (xs ++ [x]).take k = xs.take k) ∨
      (xs.length < k ∧ (xs ++ [x]).take k = xs ++ [x]) := by
  by_cases hk : k ≤ xs.length
  · exact Or.inl ⟨hk, List.take_append_of_le_length hk⟩
  · exact Or.inr ⟨by omega, List.take_of_length_le (by simp; omega)⟩

namespace Txn

variable {start size : ℕ} {t : Txn start size} {old d : ℕ → Block}

theorem Settled.recover_take {v : ℕ → Block} (h : t.Settled old v d) (k : ℕ) :
    t.Settled old v (applyWrites d ((recoverWrites start size d).take k)) := by
  rw [recoverWrites_of_empty h.1]
  cases k with
  | zero => simpa using h
  | succ k =>
    rw [List.take_of_length_le (by simp), applyWrites_cons, applyWrites_nil]
    refine ⟨by simpa using headerN_putHeader_nil _, fun b hb => ?_, h.2.2.header _⟩
    rw [update_of_ne (t.ne_of_inLog t.start_inLog hb).symm]
    exact h.2.1 b hb

theorem Logged.recover_take (h : t.Logged old d) (k : ℕ) :
    t.Logged old (applyWrites d ((recoverWrites start size d).take k)) ∨
      t.Settled old t.new (applyWrites d ((recoverWrites start size d).take k)) := by
  rw [recoverWrites_of_logged h]
  rcases take_append_singleton (RedoLog.homeCopies t.new t.blocks)
    (start, putHeader [] (d start)) k with ⟨-, hk⟩ | ⟨-, hk⟩
  · rw [hk]
    exact Or.inl (h.homeCopies k)
  · rw [hk]
    exact Or.inr (h.installed (headerN_putHeader_nil _))

def recovered (start size : ℕ) (ks : List ℕ) (d : ℕ → Block) : ℕ → Block :=
  applyWrites (crashedRuns (recoverWrites start size) ks d)
    (recoverWrites start size (crashedRuns (recoverWrites start size) ks d))

theorem Settled.recovered {v : ℕ → Block} (h : t.Settled old v d) (ks : List ℕ) :
    t.Settled old v (recovered start size ks d) := by
  have hcrash : t.Settled old v (crashedRuns (recoverWrites start size) ks d) :=
    crashedRuns_preserves (I := t.Settled old v) (fun _ hd k => hd.recover_take k) ks h
  have hfull := hcrash.recover_take
    (recoverWrites start size (crashedRuns (recoverWrites start size) ks d)).length
  rwa [List.take_length] at hfull

theorem Logged.recovered (h : t.Logged old d) (ks : List ℕ) :
    t.Settled old t.new (recovered start size ks d) := by
  have hcrash : t.Logged old (crashedRuns (recoverWrites start size) ks d) ∨
      t.Settled old t.new (crashedRuns (recoverWrites start size) ks d) := by
    refine crashedRuns_preserves (I := fun d => t.Logged old d ∨ t.Settled old t.new d)
      ?_ ks (Or.inl h)
    rintro d (hd | hd) k
    · exact hd.recover_take k
    · exact Or.inr (hd.recover_take k)
  rcases hcrash with hd | hd
  · rw [Txn.recovered, recoverWrites_of_logged hd]
    exact hd.installed (headerN_putHeader_nil _)
  · exact hd.recovered []

end Txn

theorem commit_eq {start size : ℕ} (t : Txn start size) (m : Machine)
    (hstart : m.log.start = start) (hlh : m.log.lh = t.blocks)
    (hcache : ∀ b ∈ t.blocks, m.cache b = t.new b) (hne : t.blocks ≠ []) :
    ∃ h₁ h₀ : Block, getHeader h₁ = t.blocks ∧ headerN h₀ = 0 ∧
      commit m = bwrites (m.setLh []) (logCopies start t.new 0 t.blocks ++
        ((start, h₁) :: (homeCopies t.new t.blocks ++ [(start, h₀)]))) := by
  subst hstart
  have hlog : writeLog m = bwrites m (logCopies m.log.start t.new 0 t.blocks) := by
    rw [writeLog, hlh]
    exact writeLogLoop_eq t.new t.blocks 0 m hcache fun b hb => t.outside_bounds hb
  set h₁ := putHeader t.blocks (m.cache m.log.start) with hh₁
  have hhead : writeHead (writeLog m) =
      bwrites m (logCopies m.log.start t.new 0 t.blocks ++ [(m.log.start, h₁)]) := by
    have hread : applyWrites m.cache (logCopies m.log.start t.new 0 t.blocks) m.log.start =
        m.cache m.log.start := by
      apply applyWrites_of_notMem
      intro hmem
      have := (mem_logCopies hmem).1
      omega
    rw [hlog, writeHead, bwrite_eq_bwrites, ← bwrites_bwrites, hh₁, ← hread, ← hlh]
    rfl
  have hcopy : ∀ j (hj : j < t.blocks.length),
      applyWrites m.cache (logCopies m.log.start t.new 0 t.blocks ++ [(m.log.start, h₁)])
        (m.log.start + 0 + j + 1) = t.new t.blocks[j] := by
    intro j hj
    rw [applyWrites_append, applyWrites_cons, applyWrites_nil,
      update_of_ne (by simp only []; omega)]
    exact logCopies_apply m.log.start t.new 0 t.blocks m.cache hj
  have hinst : installTrans (writeHead (writeLog m)) =
      bwrites m (logCopies m.log.start t.new 0 t.blocks ++
        ((m.log.start, h₁) :: homeCopies t.new t.blocks)) := by
    rw [installTrans, hhead, show (bwrites m _).log.lh = t.blocks from hlh,
      installTransLoop_eq t.new t.blocks 0 (bwrites m _) hcopy fun b hb => t.outside_bounds hb,
      bwrites_bwrites]
    simp
  refine ⟨h₁, putHeader [] ((installTrans (writeHead (writeLog m))).cache m.log.start),
    getHeader_putHeader _ _ t.length_le t.word, headerN_putHeader_nil _, ?_⟩
  have hpos : 0 < m.log.lh.length := by
    rw [hlh]
    exact List.length_pos_of_ne_nil hne
  rw [commit, if_pos hpos, hinst, bwrites_setLh]
  simp [writeHead, bwrite, bread, bwrites, setLh]

theorem commitWrites_eq {start size : ℕ} (t : Txn start size) (m : Machine)
    (hstart : m.log.start = start) (hlh : m.log.lh = t.blocks)
    (hcache : ∀ b ∈ t.blocks, m.cache b = t.new b) (hne : t.blocks ≠ []) :
    ∃ h₁ h₀ : Block, getHeader h₁ = t.blocks ∧ headerN h₀ = 0 ∧
      commitWrites m = logCopies start t.new 0 t.blocks ++
        ((start, h₁) :: (homeCopies t.new t.blocks ++ [(start, h₀)])) := by
  obtain ⟨h₁, h₀, hh₁, hh₀, heq⟩ :=
    commit_eq t { m with issued := [] } hstart hlh hcache hne
  refine ⟨h₁, h₀, hh₁, hh₀, ?_⟩
  rw [commitWrites, heq]
  simp [bwrites, setLh]

theorem commit_take {start size : ℕ} (t : Txn start size) (m : Machine)
    (hstart : m.log.start = start) (hlh : m.log.lh = t.blocks)
    (hcache : ∀ b ∈ t.blocks, m.cache b = t.new b) (hhead : headerN (m.disk start) = 0) (k : ℕ) :
    (k ≤ t.blocks.length ∧ t.Settled m.disk m.disk (applyWrites m.disk ((commitWrites m).take k))) ∨
    (t.blocks.length < k ∧ (t.Logged m.disk (applyWrites m.disk ((commitWrites m).take k)) ∨
        t.Settled m.disk t.new (applyWrites m.disk ((commitWrites m).take k)))) := by
  have hsettled : t.Settled m.disk m.disk m.disk := ⟨hhead, fun _ _ => rfl, fun _ _ _ => rfl⟩
  by_cases hne : t.blocks = []
  · have hnone : commitWrites m = [] := by
      simp [commitWrites, commit, hlh, hne]
    rw [hnone, List.take_nil, applyWrites_nil]
    by_cases hk : k ≤ t.blocks.length
    · exact Or.inl ⟨hk, hsettled⟩
    · exact Or.inr ⟨by omega, Or.inr ⟨hhead, by simp [hne], fun _ _ _ => rfl⟩⟩
  obtain ⟨h₁, h₀, hh₁, hh₀, hws⟩ := commitWrites_eq t m hstart hlh hcache hne
  have hlen := logCopies_length start t.new 0 t.blocks
  rw [hws]
  by_cases hk : k ≤ t.blocks.length
  · refine Or.inl ⟨hk, ?_⟩
    rw [List.take_append_of_le_length (by omega)]
    -- a prefix of the log copies only touches blocks of the log area after the header
    have hkeep : ∀ a, ¬ (start + 0 + 1 ≤ a ∧ a ≤ start + 0 + t.blocks.length) →
        applyWrites m.disk ((logCopies start t.new 0 t.blocks).take k) a = m.disk a := by
      intro a ha
      apply applyWrites_of_notMem
      intro hmem
      rw [List.map_take] at hmem
      exact ha (mem_logCopies (List.mem_of_mem_take hmem))
    have hlt := t.length_lt
    refine ⟨?_, fun b hb => hkeep b ?_, fun b hb _ => hkeep b ?_⟩
    · rw [hkeep start (by omega)]
      exact hhead
    · have := t.outside_bounds hb
      omega
    · unfold InLog at hb
      omega
  · refine Or.inr ⟨by omega, ?_⟩
    obtain ⟨j, hj⟩ : ∃ j, k = (logCopies start t.new 0 t.blocks).length + (j + 1) :=
      ⟨k - t.blocks.length - 1, by omega⟩
    rw [hj, List.take_length_add_append, List.take_succ_cons, applyWrites_append,
      applyWrites_cons]
    have hlogged : t.Logged m.disk (Function.update
        (applyWrites m.disk (logCopies start t.new 0 t.blocks)) start h₁) := by
      refine ⟨by simpa using hh₁, fun i hi => ?_, Txn.Rest.header (fun b hb _ => ?_) h₁⟩
      · rw [update_of_ne (by omega)]
        exact logCopies_apply start t.new 0 t.blocks m.disk hi
      · apply applyWrites_of_notMem
        intro hmem
        have := mem_logCopies hmem
        have hlt := t.length_lt
        unfold InLog at hb
        omega
    rcases take_append_singleton (homeCopies t.new t.blocks) (start, h₀) j with ⟨-, hj'⟩ | ⟨-, hj'⟩
    · rw [hj']
      exact Or.inl (hlogged.homeCopies j)
    · rw [hj']
      exact Or.inr (hlogged.installed hh₀)

/-- Between two commits: nothing is logged and the header on disk is empty. -/
structure Quiet (m : Machine) : Prop where
  cache_eq : m.cache = m.disk
  lh_nil : m.log.lh = []
  header : headerN (m.disk m.log.start) = 0

structure Updated (m₀ m : Machine) (us : List (ℕ × Block)) : Prop where
  disk_eq : m.disk = m₀.disk
  start_eq : m.log.start = m₀.log.start
  size_eq : m.log.size = m₀.log.size
  cache_eq : m.cache = applyWrites m₀.cache us
  mem_lh : ∀ b, b ∈ m.log.lh ↔ b ∈ m₀.log.lh ∨ b ∈ us.map Prod.fst
  room : m.log.lh = m₀.log.lh ∨ m.log.lh.length ≤ LOGSIZE ∧ m.log.lh.length < m.log.size

theorem logWrite_ok {l l' : Log} {b : ℕ} (h : logWrite l b = .ok l') :
    l.lh.length < LOGSIZE ∧ (l.lh.length : ℤ) < (l.size : ℤ) - 1 ∧
      l' = { l with lh := absorb l.lh b } := by
  unfold logWrite at h
  split_ifs at h with hbig hout
  cases h
  exact ⟨by omega, by omega, rfl⟩

variable {us : List (ℕ × Block)}

theorem update_updated {m₀ m m' : Machine} {u : ℕ × Block}
    (hm : Updated m₀ m us) (h : update m u = .ok m') : Updated m₀ m' (us ++ [u]) := by
  unfold update at h
  cases hl : logWrite m.log u.1 with
  | error e => simp [hl] at h
  | ok l =>
    obtain ⟨hlen, hsize, rfl⟩ := logWrite_ok hl
    simp only [hl, Except.ok.injEq] at h
    subst h
    refine ⟨hm.disk_eq, hm.start_eq, hm.size_eq, by simp [hm.cache_eq], fun b => ?_, Or.inr ?_⟩
    · simp [mem_absorb, hm.mem_lh b, or_assoc]
    · have hle := length_absorb_le m.log.lh u.1
      have hone : (if u.1 ∈ m.log.lh then 0 else 1) ≤ 1 := by split_ifs <;> omega
      exact ⟨by dsimp only; omega, by dsimp only; omega⟩

theorem updates_updated {m₀ m m' : Machine} {us vs : List (ℕ × Block)}
    (hm : Updated m₀ m us) (h : updates m vs = .ok m') : Updated m₀ m' (us ++ vs) := by
  induction vs generalizing m us with
  | nil =>
    cases h
    simpa using hm
  | cons v vs ih =>
    unfold updates at h
    cases hu : update m v with
    | error e => simp [hu] at h
    | ok m₁ =>
      simp only [hu] at h
      simpa using ih (update_updated hm hu) h

variable {m₀ m : Machine}

theorem updates_spec (h : updates m₀ us = .ok m) : Updated m₀ m us := by
  have hnil : Updated m₀ m₀ [] := ⟨rfl, rfl, rfl, rfl, by simp, Or.inl rfl⟩
  simpa using updates_updated hnil h

def Updated.txn {m₀ m : Machine} {us : List (ℕ × Block)} (h : Updated m₀ m us) (hq : Quiet m₀)
    (hsize : 0 < m₀.log.size)
    (hus : ∀ u ∈ us, u.1 < 2 ^ 32 ∧ ¬ InLog m₀.log.start m₀.log.size u.1) :
    Txn m₀.log.start m₀.log.size where
  blocks := m.log.lh
  new := applyWrites m₀.disk us
  length_lt := by
    rcases h.room with hr | hr
    · simpa [hr, hq.lh_nil] using hsize
    · exact h.size_eq ▸ hr.2
  length_le := by
    rcases h.room with hr | hr
    · simp [hr, hq.lh_nil]
    · exact hr.1
  outside := by
    intro b hb
    obtain ⟨u, hu, rfl⟩ : ∃ u ∈ us, u.1 = b := by simpa [hq.lh_nil] using (h.mem_lh b).mp hb
    exact (hus u hu).2
  word := by
    intro b hb
    obtain ⟨u, hu, rfl⟩ : ∃ u ∈ us, u.1 = b := by simpa [hq.lh_nil] using (h.mem_lh b).mp hb
    exact (hus u hu).1

theorem Updated.cache_new (h : Updated m₀ m us)
    (hq : Quiet m₀) : m.cache = applyWrites m₀.disk us := by
  rw [h.cache_eq, hq.cache_eq]

theorem Updated.mem_blocks (h : Updated m₀ m us)
    (hq : Quiet m₀) (b : ℕ) : b ∈ m.log.lh ↔ b ∈ us.map Prod.fst := by
  simpa [hq.lh_nil] using h.mem_lh b

def afterCrash (m₀ m : Machine) (k : ℕ) (ks : List ℕ) : ℕ → Block :=
  Txn.recovered m₀.log.start m₀.log.size ks (applyWrites m₀.disk ((commitWrites m).take k))

/-- Recovery after a crash at any write, or after several, gives all blocks or none. -/
theorem commit_crash_atomic {m₀ m : Machine} {us : List (ℕ × Block)} (hq : Quiet m₀)
    (hsize : 0 < m₀.log.size)
    (hus : ∀ u ∈ us, u.1 < 2 ^ 32 ∧ ¬ InLog m₀.log.start m₀.log.size u.1)
    (hup : updates m₀ us = .ok m) (k : ℕ) (ks : List ℕ) :
    ((∀ b ∈ us.map Prod.fst, afterCrash m₀ m k ks b = m₀.disk b) ∨
      (∀ b ∈ us.map Prod.fst, afterCrash m₀ m k ks b = applyWrites m₀.disk us b)) ∧
    (m.log.lh.length < k →
      ∀ b ∈ us.map Prod.fst, afterCrash m₀ m k ks b = applyWrites m₀.disk us b) ∧
    (∀ b, ¬ InLog m₀.log.start m₀.log.size b → b ∉ us.map Prod.fst →
      afterCrash m₀ m k ks b = m₀.disk b) ∧
    headerN (afterCrash m₀ m k ks m₀.log.start) = 0 := by
  have hm := updates_spec hup
  have hmem := hm.mem_blocks hq
  have hcrash := commit_take (hm.txn hq hsize hus) m hm.start_eq rfl
    (fun b _ => congrFun (hm.cache_new hq) b) (by rw [hm.disk_eq]; exact hq.header) k
  rw [hm.disk_eq] at hcrash
  rcases hcrash with ⟨hk, hset⟩ | ⟨-, hcom⟩
  · obtain ⟨hhead, hhome, hrest⟩ := hset.recovered ks
    refine ⟨Or.inl fun b hb => hhome b ((hmem b).mpr hb), fun hlt => absurd hk (not_le.mpr hlt),
      fun b hb hn => hrest b hb fun h => hn ((hmem b).mp h), hhead⟩
  · have hnew : (hm.txn hq hsize hus).Settled m₀.disk (applyWrites m₀.disk us)
        (afterCrash m₀ m k ks) := by
      rcases hcom with hlog | hset
      · exact hlog.recovered ks
      · exact hset.recovered ks
    obtain ⟨hhead, hhome, hrest⟩ := hnew
    have hall : ∀ b ∈ us.map Prod.fst, afterCrash m₀ m k ks b = applyWrites m₀.disk us b :=
      fun b hb => hhome b ((hmem b).mpr hb)
    exact ⟨Or.inr hall, fun _ => hall, fun b hb hn => hrest b hb fun h => hn ((hmem b).mp h), hhead⟩

def emptyDisk : Machine :=
  { boot 2 LOGSIZE (fun _ => Bytes.zero BSIZE) with
    log := { start := 2, size := LOGSIZE, outstanding := 1, lh := [] } }

def twoUpdates : List (ℕ × Block) := [(100, fun _ => 7), (101, fun _ => 8)]

/-- Cut after the commit point and again in the middle of the first recovery. -/
theorem commit_crash_atomic_two_blocks :
    ∃ m, updates emptyDisk twoUpdates = .ok m ∧ (afterCrash emptyDisk m 3 [1, 0] 100 = fun _ => 7) ∧
      afterCrash emptyDisk m 3 [1, 0] 101 = fun _ => 8 := by
  refine ⟨_, rfl, ?_⟩
  have hquiet : Quiet emptyDisk := ⟨rfl, rfl, by simp [headerN, emptyDisk, boot]⟩
  have hus : ∀ u ∈ twoUpdates,
      u.1 < 2 ^ 32 ∧ ¬ InLog emptyDisk.log.start emptyDisk.log.size u.1 := by
    simp [twoUpdates, emptyDisk, InLog, LOGSIZE, MAXOPBLOCKS]
  have hnew := (commit_crash_atomic hquiet (by decide) hus rfl 3 [1, 0]).2.1 (by decide)
  exact ⟨hnew 100 (by simp [twoUpdates]), hnew 101 (by simp [twoUpdates])⟩

end Xv6.RedoLog
