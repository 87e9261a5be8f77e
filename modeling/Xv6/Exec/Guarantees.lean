import Xv6.Exec.Atomic

/-!
# What `exec` guarantees

The two results are for arguments that `exec` puts at an address with a page table, or that
`uva2ka` refuses where there is none.
-/

namespace Xv6.Exec

open Lib Lib.Prog Vm
open Fs (ISlot Path)

variable {K : Image} {g : Fs.Geometry} {s : State} {m m' : Kmem} {ρ ρ' : Roles} {o : Owner} {c d : Frame}
  {args : List (List Byte)} {p : Fs.Pid}

def elfHeader : List Byte := [0x7F, 0x45, 0x4C, 0x46] ++ List.replicate 48 0

/-- The disk that `mkfs` writes when it is given one file, `f`, with this header. -/
def programDisk : Fs.Disk := fun b =>
  if b = 32 then
    Fs.Blocks.putDinode (Fs.Blocks.putDinode (Bytes.zero BSIZE) 1 ⟨Fs.T_DIR, 0, 0, 1, BSIZE⟩
      fun k => if k = 0 then 59 else 0) 2 ⟨Fs.T_FILE, 0, 0, 1, ELFHDR⟩ fun k => if k = 0 then 60 else 0
  else if b = 58 then fun j => if j.val < 7 then 0xff else if j.val = 7 then 0x1f else 0
  else if b = 59 then
    (Bytes.zero BSIZE).blit 0 (3 * Fs.DIRENT) fun j =>
      (Fs.Dirent.encode ⟨Fs.ROOTINO, Fs.dotName⟩ ++ Fs.Dirent.encode ⟨Fs.ROOTINO, Fs.dotdotName⟩ ++
        Fs.Dirent.encode ⟨2, [102]⟩).getD j 0
  else if b = 60 then (Bytes.zero BSIZE).blit 0 ELFHDR fun j => elfHeader.getD j 0
  else Bytes.zero BSIZE

def readHeader : Fs.FsProg (Option (List Byte)) := do
  match ← Fs.namei 0 [47, 102] with
  | none => .pure none
  | some ip => do
    Fs.ilock ip
    let bytes ← Fs.readi ip 0 ELFHDR
    Fs.iunlockput ip
    .pure bytes

theorem readHeader_boot : (match run (Fs.performB Fs.xv6Geometry) readHeader (Fs.bootB programDisk) with
    | .ok (r, _) => decide (r = some elfHeader)
    | .error _ => false) = true := by
  decide +kernel

theorem readHeader_runs : ∃ ip k₁ k₂ k₃ k₄,
    run (Fs.performB Fs.xv6Geometry) (Fs.namei 0 [47, 102]) (Fs.bootB programDisk) = .ok (some ip, k₁) ∧
    run (Fs.performB Fs.xv6Geometry) (Fs.ilock ip) k₁ = .ok ((), k₂) ∧
    run (Fs.performB Fs.xv6Geometry) (Fs.readi ip 0 ELFHDR) k₂ = .ok (some elfHeader, k₃) ∧
    run (Fs.performB Fs.xv6Geometry) (Fs.iunlockput ip) k₃ = .ok ((), k₄) := by
  have hboot := readHeader_boot
  rw [readHeader, run_bind] at hboot
  cases h₁ : run (Fs.performB Fs.xv6Geometry) (Fs.namei 0 [47, 102]) (Fs.bootB programDisk) with
  | error f => simp only [h₁, Bool.false_eq_true] at hboot
  | ok r₁ =>
    obtain ⟨ip, k₁⟩ := r₁
    simp only [h₁] at hboot
    cases ip with
    | none => simp [run] at hboot
    | some ip =>
      simp only [run_bind] at hboot
      cases h₂ : run (Fs.performB Fs.xv6Geometry) (Fs.ilock ip) k₁ with
      | error f => simp only [h₂, Bool.false_eq_true] at hboot
      | ok r₂ =>
        obtain ⟨⟨⟩, k₂⟩ := r₂
        simp only [h₂] at hboot
        cases h₃ : run (Fs.performB Fs.xv6Geometry) (Fs.readi ip 0 ELFHDR) k₂ with
        | error f => simp only [h₃, Bool.false_eq_true] at hboot
        | ok r₃ =>
          obtain ⟨bytes, k₃⟩ := r₃
          simp only [h₃] at hboot
          cases h₄ : run (Fs.performB Fs.xv6Geometry) (Fs.iunlockput ip) k₃ with
          | error f => simp only [h₄, Bool.false_eq_true] at hboot
          | ok r₄ =>
            obtain ⟨⟨⟩, k₄⟩ := r₄
            simp only [h₄, run, decide_eq_true_eq] at hboot
            subst hboot
            exact ⟨ip, k₁, k₂, k₃, k₄, rfl, h₂, h₃, h₄⟩

def longArg : List Byte := List.replicate 0x2ffffff 65

theorem longArg_length : longArg.length + 1 = 0x3000000 := by
  rw [longArg, List.length_replicate]

theorem longArg_getD {k : ℕ} (hk : k < PGSIZE) : longArg.getD k 0 = 65 := by
  have hlt : k < 0x2ffffff := by
    simp only [PGSIZE] at hk
    omega
  rw [longArg, List.getD_eq_getElem?_getD, List.getElem?_replicate, if_pos hlt]
  rfl

abbrev firstEntry : Word := pteOf 514 (PTE_W ||| PTE_U ||| PTE_P)

theorem firstEntry_frame : pteAddr firstEntry = 514 := by decide

theorem userWord_first (hpte : m.pte 512 0 = some firstEntry) :
    m.userWord 512 0 = some (m.word 514 0) := by
  rw [Kmem.userWord, Nat.zero_div, hpte, Option.map_some, firstEntry_frame]
  rfl

structure LongCaller (m : Kmem) (ρ : Roles) (w : Word) : Prop
    extends At smallImage m ρ (.proc 0) 512 none where
  image : NoSpace ρ .image
  free : 1028 < m.freelist.length
  first : m.pte 512 0 = some firstEntry
  word : m.word 514 0 = w
  string : ∀ k ≤ longArg.length, m.userByte 512 (PGSIZE + k) = some (longArg.getD k 0)

theorem exists_longCaller (w : Word) : ∃ m ρ, LongCaller m ρ w := by
  obtain ⟨⟨ρ, ha, hno⟩, hpte⟩ := onePage_at
  have hpages : ∀ v, v ∈ pagesFrom (pgroundup PGSIZE) (12289 * PGSIZE) ↔ 1 ≤ v ∧ v < 12289 := by
    intro v
    rw [mem_pagesFrom_pgroundup (by decide)]
    simp only [PGSIZE]
    omega
  -- The process grows, and there is memory enough for it.
  have hgrow : W (Vm.perform smallImage) (fun _ => False) (allocuvm 512 PGSIZE (12289 * PGSIZE)) (fun _ m₁ => ∃ ρ₁,
      At smallImage m₁ ρ₁ (.proc 0) 512 none ∧
      Alters (.proc 0) 512 (pagesFrom (pgroundup PGSIZE) (12289 * PGSIZE)) onePage ρ m₁ ρ₁ ∧
      ∀ v, 1 ≤ v → v < 12289 → m₁.pte 512 v ≠ none) onePage := by
    refine w_allocuvm ha (by decide) (by decide) (fun v hv => ?_) (fun m₁ ρ₁ ha₁ halt hmap => ?_)
      fun m₁ ρ₁ _ _ _ hex => ?_
    · have := (hpages v).mp hv
      rw [hpte v (by omega), if_neg (by omega)]
    · refine ⟨ρ₁, ha₁, halt, fun v hlo hhi => ?_⟩
      obtain ⟨f, -, hv, -⟩ := hmap v ((hpages v).mpr ⟨hlo, hhi⟩)
      rw [hv]
      simp
    · obtain ⟨m₂, ρ₂, h₂, ha₂, halt, hempty, -⟩ := hex
      have hle := halt.toKeeps.length_le_pages (n := 12289) ha.books ha₂ fun v hv hge => by
        rw [halt.pte v (by omega) fun hin => by have := (hpages v).mp hin; omega, hpte v (by omega),
          if_neg (by omega)]
      rw [hempty, onePage_length] at hle
      exact absurd hle (by decide)
  obtain ⟨-, m₁, -, ρ₁, ha₁, halt, hmap⟩ := wp_returns hgrow
  have hfirst : m₁.pte 512 0 = some firstEntry := by
    rw [halt.pte 0 (by decide) fun hin => absurd ((hpages 0).mp hin).1 (by decide), hpte 0 (by decide)]
    rfl
  have hle := halt.toKeeps.length_le_pages (n := 12289) ha.books ha₁ fun v hv hge => by
    rw [halt.pte v (by omega) fun hin => by have := (hpages v).mp hin; omega, hpte v (by omega),
      if_neg (by omega)]
  -- It writes the string and the word.
  obtain ⟨m, ha₂, hfree, hpte₂, hpage⟩ := ha₁.fill fun v =>
    if v = 0 then (Bytes.zero PGSIZE).setWord 0 w else fun j => longArg.getD ((v - 1) * PGSIZE + j) 0
  refine ⟨m, ρ₁, { ha₂ with
    image := fun f q hf => hno .image (by simp) f q ((halt.role f _ (by simp) (by simp [Role.Of])).mp hf)
    free := ?_
    first := (hpte₂ 0 (by decide)).trans hfirst
    word := ?_
    string := fun k hk => ?_ }⟩
  · rw [hfree]
    rw [onePage_length] at hle
    omega
  · have hp := hpage 0 (by decide) _ hfirst
    rw [firstEntry_frame, if_pos rfl] at hp
    rw [Kmem.word, hp]
    exact Bytes.word_setWord _ w (by decide)
  · have hlen := longArg_length
    have hdiv : (PGSIZE + k) / PGSIZE = k / PGSIZE + 1 := by
      simp only [PGSIZE]
      omega
    have hmod : (PGSIZE + k) % PGSIZE = k % PGSIZE := Nat.add_mod_left _ _
    have hv : k / PGSIZE + 1 < 12289 := by
      simp only [PGSIZE]
      omega
    obtain ⟨x, hx⟩ := Option.ne_none_iff_exists'.mp (hmap (k / PGSIZE + 1) (Nat.succ_pos _) hv)
    rw [Kmem.userByte, hdiv, hmod, hpte₂ _ (by omega), hx, Option.map_some,
      hpage _ (by omega) x hx, if_neg (Nat.succ_ne_zero _), Nat.add_sub_cancel]
    have hlt : k % PGSIZE < PGSIZE := Nat.mod_lt k (by decide)
    rw [Bytes.get, dif_pos hlt, Nat.div_add_mod']

theorem LongCaller.kept {w : Word} (hm : LongCaller m ρ w) (hk : Keeps .image m ρ m' ρ') :
    m'.pte 512 0 = some firstEntry ∧ m'.word (pteAddr firstEntry) 0 = w := by
  refine ⟨(hm.pte_keeps hk (by simp) (by decide)).trans hm.first, ?_⟩
  have hpage : m'.page 514 = m.page 514 :=
    hk.page 514 _ (firstEntry_frame ▸ hm.role_user (by decide) hm.first) (by simp) (by simp [Role.Of])
  rw [firstEntry_frame, Kmem.word_congr hpage]
  exact hm.word

theorem wp_fs_run {α : Type} {E : Fault → Prop} {c : Fs.FsProg α} {Q : α → State → Prop} {a : α}
    {k : Fs.BState} (hrun : run (Fs.performB g) c s.sys.kernel = .ok (a, k))
    (hQ : Q a { s with sys := { s.sys with kernel := k } }) : WP (perform K g) E (fs c) Q s := by
  refine embeds_sys.wp ?_
  simp only [WP, Fs.run_fs, hrun]
  exact hQ

theorem kernelPte_hole (K : Image) {v : ℕ} (hv : kernelPte K v ≠ none) : v / NPTENTRIES ≠ 1012 := by
  obtain ⟨w, hw⟩ := Option.ne_none_iff_exists'.mp hv
  obtain ⟨k, hk, hentry⟩ := List.exists_of_findSome?_eq_some hw
  have hin : k.virt / PGSIZE ≤ v ∧ v < (k.virt + k.size) / PGSIZE := by
    by_contra hout
    rw [Kmap.entry, if_neg hout] at hentry
    cases hentry
  have h1 := K.data_before
  have h2 := K.booted
  have h3 := K.text_before
  simp only [kmap, List.mem_cons, List.not_mem_nil, or_false] at hk
  rcases hk with rfl | rfl | rfl | rfl
  all_goals
    simp only [Kmap.size, KERNLINK, KERNBASE, EXTMEM, PHYSTOP, DEVSPACE, PGSIZE, NPTENTRIES] at *
    omega

theorem not_exhausted (h₀ : Books K m ρ) (hfree : 1028 < m.freelist.length) (hk : Keeps .image m ρ m' ρ')
    (hpte : ∀ v < 2 ^ 19, m'.pte d v = none) :
    ¬Exhausted K .image d (pagesFrom (pgroundup 0) (2 * PGSIZE)) m' ρ' := by
  rintro ⟨m₂, ρ₂, h₂, ha₂, halt₂, hempty, -⟩
  have hle := (hk.trans halt₂.toKeeps).length_le_pages (n := 2) h₀ ha₂ fun v hv hge => by
    have hout : v ∉ pagesFrom (pgroundup 0) (2 * PGSIZE) := fun hin => by
      have := ((mem_pagesFrom_pgroundup (Nat.zero_le _)).mp hin).2
      simp only [PGSIZE] at this
      omega
    rw [halt₂.pte v (by omega) hout, hpte v hv]
  rw [hempty, List.length_nil] at hle
  omega

theorem w_pushArgs_long {E : Vm.Panic → Prop} {Q : Option (ℕ × ℕ) → Kmem → Prop} (h₀ : Books K m ρ)
    (hfree : 1028 < m.freelist.length) (ha : At K m' ρ' .image d none) (hk : Keeps .image m ρ m' ρ')
    (hpte : ∀ v < 2 ^ 19, m'.pte d v = none) (htable : m'.table d 1012 = none)
    (hcopy : ∀ m₂ ρ₂, At K m₂ ρ₂ .image d none → Keeps .image m ρ m₂ ρ₂ → m₂.table d 1012 = none →
      W (Vm.perform K) E (copyout c d (1036290 * PGSIZE) (fun k => longArg.getD k 0) (12288 * PGSIZE))
        (fun b m₃ => b = false ∧ Q none m₃) m₂) :
    W (Vm.perform K) E (pushArgs c d 0 [longArg]) Q m' := by
  have hpages : ∀ v, v ∈ pagesFrom (pgroundup 0) (2 * PGSIZE) ↔ v < 2 := by
    intro v
    rw [mem_pagesFrom_pgroundup (Nat.zero_le _)]
    simp only [PGSIZE]
    omega
  have hnew : (pgroundup 0 + 2 * PGSIZE) % 2 ^ 32 = 2 * PGSIZE := by decide
  rw [pushArgs, hnew, w_bind]
  refine w_allocuvm ha (by decide) (by decide) (fun v hv => hpte v ?_) (fun m₁ ρ₁ ha₁ halt₁ hmap => ?_)
    fun m₁ ρ₁ _ _ _ hex => ?_
  · have := (hpages v).mp hv
    omega
  · obtain ⟨f, -, hw, -⟩ := hmap 0 ((hpages 0).mpr (by decide))
    rw [if_neg (by decide), w_bind]
    have hclear : (2 * PGSIZE + 2 ^ 32 - 2 * PGSIZE) % 2 ^ 32 = 0 * PGSIZE := by decide
    rw [hclear]
    refine w_clearpteu ha₁ (by decide) hw fun m₂ ha₂ halt₂ _ _ => ?_
    have htable₁ := halt₁.noTable (by decide) htable fun v hv => by
      have := (hpages v).mp hv
      simp only [NPTENTRIES]
      omega
    have htable₂ := halt₂.noTable (by decide) htable₁ fun v hv => by
      rw [Set.mem_singleton_iff.mp hv]
      decide
    -- The stack pointer is `0xFD002000`.
    have hsp : (2 * PGSIZE + 2 ^ 32 - 0x3000000 % 2 ^ 32) % 2 ^ 32 / 4 * 4 = 1036290 * PGSIZE := by decide
    have hlen : 0x3000000 % 2 ^ 32 = 12288 * PGSIZE := by decide
    rw [w_bind, pushStack, w_bind, pushLoop, if_neg (by decide), longArg_length]
    change W (Vm.perform K) E (copyout c d ((2 * PGSIZE + 2 ^ 32 - 0x3000000 % 2 ^ 32) % 2 ^ 32 / 4 * 4) _
      (0x3000000 % 2 ^ 32) >>= _) _ m₂
    rw [hsp, hlen, w_bind]
    refine wp_mono (hcopy m₂ ρ₁ ha₂ ((hk.trans halt₁.toKeeps).trans halt₂.toKeeps) htable₂)
      fun b m₃ h => ?_
    rw [h.1]
    exact h.2
  · exact absurd hex (not_exhausted h₀ hfree hk hpte)

def callerIn (m : Kmem) (sz : ℕ) : State :=
  ⟨m, ⟨Fs.bootB programDisk, fun _ => false, false⟩, ⟨512, sz, 0, 0, []⟩⟩

theorem callerIn_idle (m : Kmem) (sz : ℕ) : FsIdle 0 (callerIn m sz).sys :=
  ⟨⟨Fs.bootB_balanced programDisk, rfl, rfl⟩, rfl⟩

theorem wp_exec_file {E : Fault → Prop} {Q : ℤ → State → Prop} {sz : ℕ} (hb : Books smallImage m ρ)
    (hno : NoSpace ρ .image) (hfree : 1028 < m.freelist.length)
    (hpush : ∀ d k m₁ ρ₁, Building smallImage m ρ d m₁ ρ₁ → Pages smallImage m₁ d 0 →
      m₁.table d 1012 = none → W (Vm.perform smallImage) (fun q => E (.mem q)) (pushArgs 512 d 0 args)
        (fun r m₂ => WP (perform smallImage Fs.xv6Geometry) E (match r with
          | none => bad (some d) none
          | some (sz', sp) => commit [47, 102] 512 d sz' sp (Fs.le elfHeader 24 4)) Q
            ⟨m₂, k, ⟨512, sz, 0, 0, []⟩⟩) m₁) :
    WP (perform smallImage Fs.xv6Geometry) E (exec smallImage 0 [47, 102] args) Q (callerIn m sz) := by
  obtain ⟨ip, k₁, k₂, k₃, k₄, h₁, h₂, h₃, h₄⟩ := readHeader_runs
  have hlen : elfHeader.length = ELFHDR := by decide
  have hmagic : Fs.le elfHeader 0 4 = ELF_MAGIC := by decide
  have hphnum : Fs.le elfHeader 44 2 = 0 := by decide
  rw [exec, wp_bind]
  change WP _ E (openPath 0 [47, 102] >>= _) Q _
  rw [wp_bind, openPath, wp_bind]
  refine embeds_sys.wp ?_
  change WP _ E (fs (Fs.namei 0 [47, 102]) >>= _) _ _
  rw [wp_bind]
  refine wp_fs_run h₁ ((wp_bind _ _ _).mpr (wp_fs_run h₂ ?_))
  change WP _ E (build smallImage 512 ip args >>= _) Q _
  rw [wp_bind, build, wp_bind, load, wp_bind]
  refine wp_fs_run h₃ ?_
  simp only [hlen, hmagic, hphnum, ne_eq, not_true_eq_false, if_false]
  rw [wp_bind]
  have henough : 1025 < m.freelist.length := by omega
  have hle := spaceFrames_le smallImage ∅
  rw [Set.ncard_empty, Nat.zero_add] at hle
  refine embeds_mem.wp (w_setupkvm hb hno (fun _ _ _ _ _ hlt => absurd henough (hlt.trans_le hle).not_gt)
    fun d m₁ ρ₁ ha₁ hk₁ hpte₁ htable₁ => ?_)
  change WP _ E (fs (Fs.iunlockput ip) >>= _) _ _
  rw [wp_bind]
  refine wp_fs_run h₄ ((wp_bind _ _ _).mpr (embeds_sys.wp ?_))
  change WP _ E (mem (pushArgs 512 d 0 args) >>= _) _ _
  rw [wp_bind]
  have hpages : Pages smallImage m₁ d 0 := by
    refine ⟨fun v hv => absurd hv (Nat.not_lt_zero _), fun v hv _ => ?_, fun v _ hhi => hpte₁ v hhi⟩
    rw [hpte₁ v (by omega), kernelPte_user smallImage hv]
  have hpushed := hpush d ⟨k₄, fun _ => false, false⟩ m₁ ρ₁ ⟨ha₁, hk₁⟩ hpages
    (htable₁ 1012 (by decide) fun v hv => kernelPte_hole smallImage hv)
  refine embeds_mem.wp (wp_mono hpushed fun r m₂ h => ?_)
  cases r with
  | none => exact h
  | some r => exact h

theorem wp_exec_long {E : Fault → Prop} {Q : ℤ → State → Prop} (hb : Books smallImage m ρ)
    (hno : NoSpace ρ .image) (hfree : 1028 < m.freelist.length)
    (hcopy : ∀ d m₂ ρ₂, At smallImage m₂ ρ₂ .image d none → Keeps .image m ρ m₂ ρ₂ →
      m₂.table d 1012 = none → W (Vm.perform smallImage) (fun q => E (.mem q))
        (copyout 512 d (1036290 * PGSIZE) (fun k => longArg.getD k 0) (12288 * PGSIZE))
        (fun b m₃ => b = false ∧ ∃ ρ₃, At smallImage m₃ ρ₃ .image d none ∧
          ∀ s' ρ', Keeps .image m₃ ρ₃ s'.mem ρ' → Q (-1) s') m₂) :
    WP (perform smallImage Fs.xv6Geometry) E (exec smallImage 0 [47, 102] [longArg]) Q
      (callerIn m (12289 * PGSIZE)) := by
  refine wp_exec_file hb hno hfree fun d k m₁ ρ₁ hbuild hp htable => ?_
  refine w_pushArgs_long hb hfree hbuild.toAt hbuild.keeps (fun v hv => hp.unmapped v hv (Nat.zero_le _))
    htable fun m₂ ρ₂ ha₂ hk₂ htable₂ => wp_mono (hcopy d m₂ ρ₂ ha₂ hk₂ htable₂) ?_
  rintro b m₃ ⟨hb, ρ₃, ha₃, hQ⟩
  refine ⟨hb, ?_⟩
  change WP _ E (mem (freevm d) >>= _) Q _
  rw [wp_bind]
  exact embeds_mem.wp (w_freevm ha₃ fun m' ρ' _ _ hk' => hQ _ ρ' hk')

abbrev twoArgs : List (List Byte) := [[102], [65, 66]]

theorem twoArgs_land (base : ℕ) : Lands base PGSIZE (twoArgs.take MAXARG) := by
  simp [Lands, twoArgs, MAXARG, PGSIZE]

theorem exec_twoArgs {n : ℕ} (ha : At smallImage m ρ (.proc 0) 512 none) (hno : NoSpace ρ .image)
    (hfree : 1028 < m.freelist.length) : ∃ s', run (perform smallImage Fs.xv6Geometry)
      (exec smallImage 0 [47, 102] twoArgs) (callerIn m n) = .ok (0, s') := by
  have hrun : WP (perform smallImage Fs.xv6Geometry) (fun _ => False) (exec smallImage 0 [47, 102] twoArgs)
      (fun r _ => r = 0) (callerIn m n) := by
    refine wp_exec_file ha.books hno hfree fun d k m₁ ρ₁ hb hp htable => ?_
    refine Meets.wp (wu_pushArgs ha.books hno hb hp (by decide) (by decide)
      (.inl fun _ _ _ _ => twoArgs_land _) (fun m' ρ' _ hwhy => ?_) fun sz sp m' ρ' hb' _ => ?_)
    · rcases hwhy with hbig | hex | hfit
      · exact absurd hbig (by decide)
      · exact absurd hex (not_exhausted ha.books hfree hb.keeps fun v hv => hp.unmapped v hv (Nat.zero_le _))
      · exact absurd ⟨by rw [Fit]; decide, by decide⟩ hfit
    · have hcommit : ME smallImage Fs.xv6Geometry m.freelist (fun _ => False)
          (commit [47, 102] 512 d sz sp (Fs.le elfHeader 24 4)) (fun r _ => r = 0) ⟨m', k, ⟨512, n, 0, 0, []⟩⟩ :=
        me_commit hb' ha.toSpace (by simp) fun _ _ _ _ _ => rfl
      exact hcommit.wp
  obtain ⟨r, s', hok, rfl⟩ := wp_returns hrun
  exact ⟨s', hok⟩

theorem exec_onePage : ∃ s', run (perform smallImage Fs.xv6Geometry)
    (exec smallImage 0 [47, 102] twoArgs) (callerIn onePage PGSIZE) = .ok (0, s') := by
  obtain ⟨⟨ρ, ha, hno⟩, -⟩ := onePage_at
  refine exec_twoArgs ha (hno .image (by simp)) ?_
  rw [onePage_length]
  decide

/-- `exec` writes to pages of the new image only, and undoes everything when it fails. -/
theorem exec_safe_and_atomic (hb : Books K s.mem ρ) (hno : NoSpace ρ .image)
    (hs : Space s.mem ρ o s.proc.pgdir none) (ho : o ≠ .image) (hfs : FsIdle p s.sys) {path : Path}
    (hstr : ∀ a ∈ args, a.length < KERNBASE)
    (hland : ExecLands K g p path args s ∨ NullRefused s.mem s.proc.pgdir) :
    (∀ q, run (perform K g) (exec K p path args) s ≠ .error (.mem q)) ∧
    (∀ f off len src s', Visits (perform K g) (.mem (.write f off len src)) s' (exec K p path args) s →
      f ∈ s.mem.freelist ∧ off + len ≤ PGSIZE ∧ ∃ d ∈ s.mem.freelist, ∃ v < 2 ^ 19, ∃ w,
        s'.mem.pte d v = some w ∧ w &&& PTE_U ≠ 0 ∧ pteAddr w = f) ∧
    (∀ ip s₁ out s₂ d, run (perform K g) (openPath p path) s = .ok (some ip, s₁) →
      run (perform K g) (build K s.proc.pgdir ip args) s₁ = .ok (out, s₂) → out.pgdir = some d →
      ∀ v < 2 ^ 20, ∀ w, s₂.mem.pte d v = some w → w &&& PTE_U ≠ 0 → v < 2 ^ 19) ∧
    ∀ r s', run (perform K g) (exec K p path args) s = .ok (r, s') →
      r = 0 ∨ r = -1 ∧ Undone K s s' := by
  have hfsE : ∀ f q, Fault.fs f ≠ .mem q := fun f q hq => nomatch hq
  have hmeets := me_exec (E := fun f => ∀ q, f ≠ .mem q) hb hno hs ho hfsE hstr hland hfs.1
  refine ⟨fun q hrun => wp_error hmeets.wp hrun q rfl, fun f off len src s' hv => hmeets.safe.visits hv,
    fun ip s₁ out s₂ d hopen hbuild hd v hv w hw hU => ?_, fun r s' hrun => ?_⟩
  · have hopened : ME K g s.mem.freelist (fun f => ∀ q, f ≠ .mem q) (openPath p path)
        (fun r s₁ => s₁.mem = s.mem ∧
          ∀ ip, r = some ip → FsLeft s.sys.kernel.tables (some ip) s₁.sys) s :=
      me_openPath hfsE hfs.1 (fun _ _ => ⟨rfl, fun _ h => (nomatch h)⟩) fun ip _ h =>
        ⟨rfl, fun _ hip => Option.some.inj hip ▸ h⟩
    obtain ⟨hm, hleft⟩ := wp_ok hopened.wp hopen
    have hbuilt : ME K g s.mem.freelist (fun f => ∀ q, f ≠ .mem q) (build K s.proc.pgdir ip args)
        (fun out s₂ => ∀ d, out.pgdir = some d → ∃ ρ', Building K s.mem ρ d s₂.mem ρ') s₁ := by
      refine me_build hb hno hfsE hstr (lands_opened hb hs ho hland hopen) hm (hleft ip rfl) (fun r ip' s' hmem _ _ d hd => ?_)
        fun d sz sp entry s' ρ' hb' _ _ _ d' hd => ?_
      · subst hd
        exact hmem
      · cases hd
        exact ⟨ρ', hb'⟩
    obtain ⟨ρ', hb'⟩ := wp_ok hbuilt.wp hbuild d hd
    exact hb'.accessible_lt hv hw hU
  · rcases wp_ok hmeets.wp hrun with ⟨hr, hun⟩ | ⟨hr, -⟩
    · exact .inr ⟨hr, hun⟩
    · exact .inl hr

theorem exec_safe_and_atomic_onePage :
    (∃ s', run (perform smallImage Fs.xv6Geometry) (exec smallImage 0 [47, 102] twoArgs)
      (callerIn onePage PGSIZE) = .ok (0, s')) ∧
    ∀ f off len src s', Visits (perform smallImage Fs.xv6Geometry) (.mem (.write f off len src)) s'
      (exec smallImage 0 [47, 102] twoArgs) (callerIn onePage PGSIZE) →
        f ∈ onePage.freelist ∧ off + len ≤ PGSIZE ∧ ∃ d ∈ onePage.freelist, ∃ v < 2 ^ 19, ∃ w,
          s'.mem.pte d v = some w ∧ w &&& PTE_U ≠ 0 ∧ pteAddr w = f := by
  obtain ⟨⟨ρ, ha, hno⟩, -⟩ := onePage_at
  obtain ⟨-, hwrites, -, -⟩ := exec_safe_and_atomic (g := Fs.xv6Geometry) (s := callerIn onePage PGSIZE)
    ha.books (hno .image (by simp)) ha.toSpace (by simp) (callerIn_idle _ _)
    (show ∀ a ∈ twoArgs, a.length < KERNBASE by decide)
    (.inl fun _ _ _ _ _ _ _ _ _ _ _ _ => twoArgs_land _)
  exact ⟨exec_onePage, hwrites⟩

theorem exec_overwrites_caller : ∃ s ρ, Books smallImage s.mem ρ ∧ NoSpace ρ .image ∧
    Space s.mem ρ (.proc 0) s.proc.pgdir none ∧ FsIdle 0 s.sys ∧ s.proc.sz = 12289 * PGSIZE ∧
    (∀ k ≤ longArg.length, s.mem.userByte s.proc.pgdir (PGSIZE + k) = some (longArg.getD k 0)) ∧
    ∃ s', run (perform smallImage Fs.xv6Geometry) (exec smallImage 0 [47, 102] [longArg]) s =
        .ok (-1, s') ∧
      s.mem.userWord s.proc.pgdir 0 = some 0x202007 ∧
      s'.mem.userWord s.proc.pgdir 0 = some 0x41414141 := by
  obtain ⟨m, ρ, hm⟩ := exists_longCaller firstEntry
  have hrun : WP (perform smallImage Fs.xv6Geometry) (fun _ => False)
      (exec smallImage 0 [47, 102] [longArg])
      (fun r s' => r = -1 ∧ s'.mem.userWord 512 0 = some 0x41414141) (callerIn m (12289 * PGSIZE)) := by
    refine wp_exec_long hm.books hm.image hm.free fun d m₂ ρ₂ ha₂ hk₂ htable₂ => ?_
    have hs₂ : At smallImage m₂ ρ₂ (.proc 0) 512 none := ⟨hm.of_keeps hk₂ (by simp), ha₂.books⟩
    obtain ⟨hpte₂, hword₂⟩ := hm.kept hk₂
    refine w_copyout_null (by decide) htable₂ hpte₂ hword₂ (by decide)
      (fun hU => absurd hU (by decide)) fun _ => ⟨by decide, ?_⟩
    rw [if_pos (by decide)]
    -- The page is full of the argument, and the word is not accepted any more.
    obtain ⟨hs₃, halt₃⟩ := hs₂.writeUser (S := {0}) (by decide) hpte₂ rfl
      ((m₂.page (pteAddr firstEntry)).blit 0 PGSIZE fun k => longArg.getD k 0)
    set m₃ := m₂.setPage (pteAddr firstEntry)
      ((m₂.page (pteAddr firstEntry)).blit 0 PGSIZE fun k => longArg.getD k 0)
    have hpte₃ : m₃.pte 512 0 = some firstEntry := by
      rw [hs₂.pte_frame (page_frame (hs₂.role_user (by decide) hpte₂) (by simp) (by simp)
        fun g hg => Kmem.setPage_page_of_ne _ hg) (by decide)]
      exact hpte₂
    have hword₃ : m₃.word (pteAddr firstEntry) 0 = 0x41414141 := by
      rw [Kmem.word, Kmem.setPage_page_self]
      exact Bytes.word_blit_of_mem _ (j := 0) le_rfl (by decide) fun k hk => by
        rw [longArg_getD (by simp only [PGSIZE]; omega)]
        interval_cases k <;> rfl
    have ha₃ : At smallImage m₃ ρ₂ .image d none := ⟨ha₂.of_keeps halt₃.toKeeps (by simp), hs₃.books⟩
    have htable₃ : m₃.table d 1012 = none := by
      rw [Kmem.table_congr (halt₃.page d _ ha₂.role_dir (by simp) (by simp [Role.Of]))]
      exact htable₂
    refine w_copyout_null (by decide) htable₃ hpte₃ hword₃ (by decide) (fun _ => ⟨rfl, ρ₂, ha₃, ?_⟩)
      fun hU => absurd rfl hU
    intro s' ρ' hk'
    refine ⟨rfl, ?_⟩
    have hkept : s'.mem.userWord 512 0 = m₃.userWord 512 0 := by
      rw [Kmem.userWord_eq, Kmem.userWord_eq, hs₃.mapped_keeps hk' (by simp) (by decide)]
    rw [hkept, userWord_first hpte₃, ← firstEntry_frame, hword₃]
  obtain ⟨r, s', hrun', rfl, hlost⟩ := wp_returns hrun
  refine ⟨callerIn m (12289 * PGSIZE), ρ, hm.books, hm.image, hm.toSpace, callerIn_idle _ _, rfl, hm.string,
    s', hrun', ?_, hlost⟩
  refine (userWord_first hm.first).trans ?_
  rw [hm.word]
  decide

/-- After `exec`, the strings and the vector of pointers to them are on the new stack. -/
theorem exec_argument_stack (hb : Books K s.mem ρ) (hno : NoSpace ρ .image)
    (hs : Space s.mem ρ o s.proc.pgdir none) (ho : o ≠ .image) (hfs : FsIdle p s.sys) {path : Path}
    (hstr : ∀ a ∈ args, a.length < KERNBASE)
    (hland : ExecLands K g p path args s ∨ NullRefused s.mem s.proc.pgdir) :
    (∀ q, run (perform K g) (exec K p path args) s ≠ .error (.mem q)) ∧
    ∀ r s', run (perform K g) (exec K p path args) s = .ok (r, s') → r = -1 ∨
      r = 0 ∧ Fit args ∧ ∃ ip s₁ sz s₂, run (perform K g) (openPath p path) s = .ok (some ip, s₁) ∧
        run (perform K g) (load K ip) s₁ = .ok (.ok s'.proc.pgdir sz s'.proc.eip, s₂) ∧
        Placed s₂.mem s'.mem s'.proc.pgdir sz s'.proc.sz s'.proc.esp args := by
  have hmeets := me_exec (E := fun f => ∀ q, f ≠ .mem q) hb hno hs ho
    (fun f q hq => nomatch hq) hstr hland hfs.1
  refine ⟨fun q hrun => wp_error hmeets.wp hrun q rfl, fun r s' hrun => ?_⟩
  rcases wp_ok hmeets.wp hrun with ⟨hr, -⟩ | ⟨hr, hreplaced⟩
  · exact .inl hr
  · obtain ⟨ip, s₁, sz, s₂, hopen, hload, hplaced⟩ := hreplaced
    obtain ⟨ptrs, hstack⟩ := hplaced.stack
    exact .inr ⟨hr, hstack.fit, ip, s₁, sz, s₂, hopen, hload, hplaced⟩

theorem exec_argument_stack_onePage : ∃ s' sz m₂, run (perform smallImage Fs.xv6Geometry)
    (exec smallImage 0 [47, 102] twoArgs) (callerIn onePage PGSIZE) = .ok (0, s') ∧
      Placed m₂ s'.mem s'.proc.pgdir sz s'.proc.sz s'.proc.esp twoArgs := by
  obtain ⟨⟨ρ, ha, hno⟩, -⟩ := onePage_at
  obtain ⟨s', hrun⟩ := exec_onePage
  obtain ⟨-, hend⟩ := exec_argument_stack (g := Fs.xv6Geometry) (s := callerIn onePage PGSIZE) ha.books
    (hno .image (by simp)) ha.toSpace (by simp) (callerIn_idle _ _)
    (show ∀ a ∈ twoArgs, a.length < KERNBASE by decide)
    (.inl fun _ _ _ _ _ _ _ _ _ _ _ _ => twoArgs_land _)
  rcases hend 0 s' hrun with hr | ⟨-, -, ip, s₁, sz, s₂, -, -, hplaced⟩
  · cases hr
  · exact ⟨s', sz, s₂.mem, hrun, hplaced⟩

/-- Here the word at address 0 has a frame beyond the end of memory: the kernel panics. -/
theorem exec_panics_on_argument : ∃ s ρ, Books smallImage s.mem ρ ∧ NoSpace ρ .image ∧
    Space s.mem ρ (.proc 0) s.proc.pgdir none ∧ FsIdle 0 s.sys ∧ s.proc.sz = 12289 * PGSIZE ∧
    (∀ k ≤ longArg.length, s.mem.userByte s.proc.pgdir (PGSIZE + k) = some (longArg.getD k 0)) ∧
    s.mem.userWord s.proc.pgdir 0 = some (BitVec.ofNat 32 PHYSTOP ||| PTE_U ||| PTE_P) ∧
    run (perform smallImage Fs.xv6Geometry) (exec smallImage 0 [47, 102] [longArg]) s =
      .error (.mem .trap) := by
  set w : Word := BitVec.ofNat 32 PHYSTOP ||| PTE_U ||| PTE_P
  obtain ⟨m, ρ, hm⟩ := exists_longCaller w
  have hrun : WP (perform smallImage Fs.xv6Geometry) (· = .mem .trap)
      (exec smallImage 0 [47, 102] [longArg]) (fun _ _ => False) (callerIn m (12289 * PGSIZE)) := by
    refine wp_exec_long hm.books hm.image hm.free fun d m₂ ρ₂ ha₂ hk₂ htable₂ => ?_
    obtain ⟨hpte₂, hword₂⟩ := hm.kept hk₂
    refine w_copyout_null (by decide) htable₂ hpte₂ hword₂ (by decide)
      (fun hU => absurd hU (by decide)) fun _ => ⟨by decide, ?_⟩
    rw [if_neg (by decide)]
  refine ⟨callerIn m (12289 * PGSIZE), ρ, hm.books, hm.image, hm.toSpace, callerIn_idle _ _, rfl, hm.string,
    ?_, ?_⟩
  · exact (userWord_first hm.first).trans (congrArg some hm.word)
  · obtain ⟨f, hrun', rfl⟩ := wp_faults hrun
    exact hrun'

end Xv6.Exec
