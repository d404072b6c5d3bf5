import Xv6.Kernel.PageProc

/-!
# xv6 — where `exec` takes pages and leaves them

`kexec` builds the new image in a table that belongs to the running code (`A`
contains its pages) and then exchanges it for the process's own; every failure on
the way frees it. While the image is built it has no holes (`Loaded`), so that its
size is bounded by the number of pages there are.
-/

namespace Xv6.Kernel

open Prog Vm

variable {α : Type} {L : Layout} {A : Multiset Nat} {u : Pid → Bool} {k : State} {p q : Pid}
  {pt : Pagetable} {sz sp : Nat} {ip : Fs.IPtr}

/-- The running code uses memory. `P` says what it holds afterwards. -/
theorem Good.wp_mem {m : MemM α} {P : α → Multiset Nat → Prop} (h : Good L A u k)
    (hm : ∀ F, Holds F k.mem A →
      wp m (fun a mem => ∃ A', P a A' ∧ Holds F mem A') (fun _ => False) k.mem) :
    wp (onMem m) (fun a k' => ∃ A', P a A' ∧ Good L A' u k') NotVm k := by
  refine wp_onMem_res (wp_imp (hm _ h.inv.front.holds) ?_)
  rintro a mem ⟨A', hP, hmem⟩
  exact ⟨A', hP, h.inv.mem hmem.own, h.unused⟩

/-- What is mapped is the memory, all of it. -/
structure Loaded (pt : Pagetable) (sz : Nat) : Prop where
  image : Image (leaf pt) sz
  dense : ∀ v, v < npages sz → leaf pt v ≠ none

theorem Loaded.of_leaf {pt' : Pagetable} (h : Loaded pt sz) (hleaf : leaf pt' = leaf pt) :
    Loaded pt' sz :=
  ⟨hleaf ▸ h.image, hleaf ▸ h.dense⟩

theorem Loaded.grown {pt' : Pagetable} {sz' : Nat} {perm : Perm} (h : Loaded pt sz)
    (hle : sz ≤ sz') (hbound : sz' ≤ TRAPFRAME)
    (hgrown : Grown perm (leaf pt) (npages sz) (npages sz') (leaf pt')) : Loaded pt' sz' := by
  refine ⟨h.image.grown hle hbound hgrown, fun v hv => ?_⟩
  by_cases hold : v < npages sz
  · rw [hgrown.old v (.inl hold)]
    exact h.dense v hold
  · obtain ⟨pa, -, hpa⟩ := hgrown.new v (by omega) hv
    rw [hpa]
    nofun

/-- `uvmalloc` on the new image. -/
theorem wp_uvmalloc_good {newsz : Nat} {w x : Bool} (hl : Loaded pt sz) (hle : sz ≤ newsz)
    (h : Good L (Vm.space pt + A) u k) :
    wp (onMem (uvmalloc pt sz newsz w x)) (fun r k' => Good L (Vm.space r.1 + A) u k' ∧
      (r.2 = 0 ∧ leaf r.1 = leaf pt ∨ r.2 = newsz ∧ newsz ≤ TRAPFRAME ∧
        Grown ⟨w, x, true⟩ (leaf pt) (npages sz) (npages newsz) (leaf r.1))) NotVm k := by
  refine wp_imp (h.wp_mem (P := fun r A' => A' = Vm.space r.1 + A ∧
    (r.2 = 0 ∧ leaf r.1 = leaf pt ∨ r.2 = newsz ∧ newsz ≤ TRAPFRAME ∧
      Grown ⟨w, x, true⟩ (leaf pt) (npages sz) (npages newsz) (leaf r.1))) fun F hmem => ?_) ?_
  · refine wp_imp (wp_uvmalloc hle hl.image.sz_le (fun v hlo hhi => hl.image.none hlo hhi)
      (.inr hl.dense) hmem) ?_
    rintro r mem ⟨hmem, -, hr⟩
    exact ⟨_, ⟨rfl, hr.imp_right fun hr => ⟨hr.1, hr.2.1, hr.2.2.1⟩⟩, hmem⟩
  · rintro r k' ⟨_, ⟨rfl, hr⟩, h'⟩
    exact ⟨h', hr⟩

/-! ### Segments -/

theorem flows_onFsMem {m : Fs.IoM Vm.Panic Mem α} (hm : ∀ {s B}, Owns L.kend L.total s.2 (A + B) →
      wp m (fun _ s' => Owns L.kend L.total s'.2 (A + B))
        (Sum.elim (fun _ => True) fun _ => False) s) : Flows L A u (onFsMem m) := by
  refine ⟨fun k hk => ?_⟩
  rw [onFsMem, wp_zoom]
  refine wp_mono (hm hk.inv.front) (fun _ s hs => ⟨hk.inv.mem hs, hk.unused⟩) ?_
  rintro (e | e) he
  · exact fun _ => nofun
  · exact he.elim

theorem flows_loadLoop (himage : Image (leaf pt) sz) {va : Nat} {offset size : Nat} (n i : Nat) :
    Flows L (Vm.space pt + A) u (loadLoop pt va ip offset size n i) := by
  induction n generalizing i with
  | zero => exact .pure _
  | succ n ih =>
    dsimp only [loadLoop]
    split
    · exact .stop fun _ => nofun
    rename_i hpa
    obtain ⟨-, pte, hleaf, hu, hpte⟩ := walkaddr_ne_zero hpa
    have hframe := mem_frames (himage.user hleaf hu).2 hleaf
    rw [hpte] at hframe
    refine .bind (flows_onFsMem fun {s B} hown => ?_) fun r => .ite (.pure _) (ih _)
    refine Fs.wp_readi_side (I := fun m => Owns L.kend L.total m (Vm.space pt + A + B))
      (fun tot bs m hlen hm => ?_) _ hown
    simp only [wp_bind, wp_modify, wp_pure]
    refine hm.store (mem_of_frame hframe B) (hlen.trans ?_)
    split <;> omega

/-- **`loadSegments`** leaves an image without holes, whether it succeeds or not. -/
theorem wp_loadSegments (n off : Nat) (hl : Loaded pt sz) (h : Good L (Vm.space pt + A) u k) :
    wp (loadSegments ip n off pt sz)
      (fun r k' => Good L (Vm.space r.1 + A) u k' ∧ Loaded r.1 r.2.1) NotVm k := by
  induction n generalizing pt sz k off with
  | zero => exact wp_pure.mpr ⟨h, hl⟩
  | succ n ih =>
    simp only [loadSegments, wp_bind]
    refine flows_onFs.andThen h fun r k1 h1 => ?_
    have hstay : wp (pure (pt, sz, false)) (fun r k' => Good L (Vm.space r.1 + A) u k' ∧
      Loaded r.1 r.2.1) NotVm k1 := wp_pure.mpr ⟨h1, hl⟩
    generalize ProgHeader.ofBytes r.2 = ph
    refine wp_ite.mpr ⟨fun _ => hstay, fun _ => wp_ite.mpr ⟨fun _ => ih _ hl h1, fun _ =>
      wp_ite.mpr ⟨fun _ => hstay, fun _ => wp_ite.mpr ⟨fun _ => hstay, fun _ =>
      wp_ite.mpr ⟨fun _ => hstay, fun _ => ?_⟩⟩⟩⟩⟩
    rw [wp_bind]
    -- the size reached, with the image as it is then
    have hnext : ∀ {pt' : Pagetable} {sz' : Nat} {k' : State}, Loaded pt' sz' →
        Good L (Vm.space pt' + A) u k' →
        wp (do
          if ← loadseg pt' ph.vaddr ip ph.off ph.filesz then
            loadSegments ip n (u32 (off + PROGHDR)) pt' sz'
          else pure (pt', sz', false))
          (fun r k' => Good L (Vm.space r.1 + A) u k' ∧ Loaded r.1 r.2.1) NotVm k' := by
      intro pt' sz' k' hl' h'
      refine (flows_loadLoop hl'.image _ _).seq h' fun ok k'' h'' => ?_
      exact wp_ite.mpr ⟨fun _ => ih _ hl' h'', fun _ => wp_pure.mpr ⟨h'', hl'⟩⟩
    by_cases hle : sz ≤ ph.vaddr + ph.memsz
    · refine wp_imp (wp_uvmalloc_good hl hle h1) ?_
      rintro ⟨pt', sz'⟩ k2 ⟨h2, ⟨hzero, hleaf⟩ | ⟨hsz', hbound, hgrown⟩⟩
      · exact wp_ite.mpr ⟨fun _ => wp_pure.mpr ⟨h2, hl.of_leaf hleaf⟩, fun hne => absurd hzero hne⟩
      · have hl' : Loaded pt' sz' := by
          rw [show sz' = _ from hsz']
          exact hl.grown hle hbound hgrown
        refine wp_ite.mpr ⟨fun hzero => wp_pure.mpr ⟨h2, ?_⟩, fun _ => hnext hl' h2⟩
        -- no memory was asked for, and none was there before
        have hsz : sz = sz' := by omega
        rw [hsz]
        exact hl'
    · rw [uvmalloc, if_pos (Nat.lt_of_not_le hle)]
      refine wp_onMem_res (wp_pure.mpr ?_)
      refine wp_ite.mpr ⟨fun _ => wp_pure.mpr ⟨h1, hl⟩, fun _ => hnext hl h1⟩

theorem wp_loadImage (h : Good L A u k) : wp (loadImage p ip) (fun r k' => match r.2 with
      | none => Good L A u k'
      | some (pt, sz, _) => Good L (Vm.space pt + A) u k' ∧ Loaded pt sz) NotVm k := by
  simp only [loadImage, wp_bind]
  refine flows_onFs.andThen h fun r k1 h1 => ?_
  refine wp_ite.mpr ⟨fun _ => wp_pure.mpr h1, fun _ => wp_ite.mpr ⟨fun _ => wp_pure.mpr h1,
    fun _ => ?_⟩⟩
  simp only [wp_bind, wp_gets]
  refine wp_imp (h1.wp_mem
    (P := fun r A' => r.elim (A' = A) fun pt => A' = Vm.space pt + A ∧ Loaded pt 0) fun F hmem =>
    wp_imp (wp_procPagetable hmem) ?_) ?_
  · rintro (_ | pt) mem hmem
    · exact ⟨A, rfl, hmem⟩
    · refine ⟨_, ⟨rfl, hmem.2, fun v hv => ?_⟩, hmem.1⟩
      exact absurd hv (Nat.not_lt_zero v)
  · rintro (_ | pt) k2 ⟨A', hA', h2⟩
    · rw [hA'] at h2
      exact wp_pure.mpr h2
    · obtain ⟨rfl, hl⟩ := hA'
      exact wp_then (wp_loadSegments _ _ hl h2) fun img k3 h3 => wp_pure.mpr h3

/-! ### The stack -/

/-- `copyout` into the new image, to pages that are there. -/
theorem flows_copyoutNew (hp : u p = false) {bs : List UInt8}
    (hpresent : ∀ v, sp / PGSIZE ≤ v → v * PGSIZE < sp + bs.length → Present pt v) :
    Flows L (Vm.space pt + A) u (onUser p (some pt) (Vm.copyout sp bs)) := by
  refine ⟨fun k hk => ?_⟩
  obtain ⟨own, size, tf, hspace, -⟩ := hk.openSpace hp
  have hown : (k.proc p).pagetable = some own := congrArg Space.pagetable hspace
  simp only [onUser, wp_bind, wp_gets, id, hown, wp_zoom]
  refine wp_mono (wp_copyout_other _ _ rfl hpresent
    (fun pa hpa => mem_of_frame hpa _) hk.inv.front) ?_ fun _ => False.elim
  rintro _ _ ⟨mem, rfl, hmem⟩
  rw [State.putUser_of_eq hown]
  exact ⟨hk.inv.mem hmem, hk.unused⟩

/-- Moving the stack pointer down. -/
theorem pushDown_add_le {n : Nat} (hn : n ≤ sp) (hsp : sp < 2 ^ 64) : pushDown sp n + n ≤ sp := by
  have hu : u64 ((sp : Int) - n) = sp - n := by
    unfold u64
    omega
  simp only [pushDown]
  omega

theorem wp_pushArgs {top base : Nat} (hp : u p = false) (htop : top < 2 ^ 64)
    (hbase : PGSIZE ≤ base) (hpresent : ∀ sp n, base ≤ sp → sp + n ≤ top →
      ∀ v, sp / PGSIZE ≤ v → v * PGSIZE < sp + n → Present pt v) {args : List (List UInt8)}
    (hargs : ∀ arg ∈ args, arg.length < PGSIZE) {ustack : List Nat} (hsp : base ≤ sp)
    (hsp' : sp ≤ top) (hlen : ustack.length ≤ MAXARG) (h : Good L (Vm.space pt + A) u k) :
    wp (pushArgs p pt base args sp ustack) (fun r k' => Good L (Vm.space pt + A) u k' ∧
      ∀ sp' ustack', r = some (sp', ustack') → base ≤ sp' ∧ sp' ≤ top ∧
        ustack'.length = ustack.length + args.length ∧ ustack'.length ≤ MAXARG) NotVm k := by
  induction args generalizing k sp ustack with
  | nil =>
    refine wp_pure.mpr ⟨h, ?_⟩
    rintro _ _ ⟨⟩
    exact ⟨hsp, hsp', rfl, hlen⟩
  | cons arg args ih =>
    have harg := hargs arg (List.mem_cons_self ..)
    have hdown := pushDown_add_le (show arg.length + 1 ≤ sp by omega) (by omega)
    refine wp_ite.mpr ⟨fun _ => wp_pure.mpr ⟨h, nofun⟩, fun hmax => wp_ite.mpr
      ⟨fun _ => wp_pure.mpr ⟨h, nofun⟩, fun hlow => ?_⟩⟩
    refine (flows_copyoutNew hp ?_).seq h fun ok k1 h1 => wp_ite.mpr ⟨fun _ => ?_,
      fun _ => wp_pure.mpr ⟨h1, nofun⟩⟩
    · refine hpresent _ _ (Nat.le_of_not_lt hlow) ?_
      rw [List.length_append, List.length_singleton]
      omega
    · refine wp_imp (ih (fun a ha => hargs a (List.mem_cons_of_mem _ ha)) (Nat.le_of_not_lt hlow)
        (by omega) ?_ h1) fun r k2 h2 => ⟨h2.1, fun sp' ustack' hr => ?_⟩
      · rw [List.length_append, List.length_singleton]
        omega
      · obtain ⟨hlo, hhi, hcount, hcount'⟩ := h2.2 sp' ustack' hr
        rw [List.length_append, List.length_singleton] at hcount
        exact ⟨hlo, hhi, by rw [List.length_cons]; omega, hcount'⟩

/-- **`makeStack`** adds two pages to the image: one that user code cannot use, and
the stack. -/
theorem wp_makeStack {argv : List (List UInt8)} (hp : u p = false)
    (hargs : ∀ arg ∈ argv, arg.length < PGSIZE) (hl : Loaded pt sz)
    (h : Good L (Vm.space pt + A) u k) : wp (makeStack p pt sz argv)
      (fun r k' => Good L (Vm.space r.1 + A) u k' ∧ Image (leaf r.1) r.2.1) NotVm k := by
  have hround : npages (pgRoundUp sz) = npages sz := by rw [pgRoundUp_eq, npages_mul]
  have hl' : Loaded pt (pgRoundUp sz) := by
    refine ⟨hl.image.mono hround.ge ?_, fun v hv => hl.dense v ?_⟩
    · rw [← npages_le_iff, hround, npages_le_iff]
      exact hl.image.sz_le
    · rwa [hround] at hv
  have hsum : pgRoundUp sz + (USERSTACK + 1) * PGSIZE = (npages sz + 2) * PGSIZE := by
    rw [pgRoundUp_eq, show USERSTACK = 1 from rfl, PGSIZE_eq]
    omega
  refine wp_bind.mpr (wp_imp (wp_uvmalloc_good hl' (Nat.le_add_right _ _) h) ?_)
  rintro ⟨pt1, sz1⟩ k1 ⟨h1, hr⟩
  refine wp_ite.mpr ⟨fun hzero => wp_pure.mpr ⟨h1, ?_⟩, fun hne => ?_⟩
  · obtain ⟨-, hleaf⟩ | ⟨hsz1, -⟩ := hr
    · rw [hleaf]
      exact hl'.image
    · rw [hsum, PGSIZE_eq] at hsz1
      omega
  obtain ⟨hzero, -⟩ | ⟨hsz1, hbound, hgrown⟩ := hr
  · exact absurd hzero hne
  change sz1 = _ at hsz1
  rw [hsum] at hsz1 hbound hgrown
  rw [hround, npages_mul] at hgrown
  have hmax : npages sz + 2 ≤ NUSER := by
    rw [← npages_mul (npages sz + 2), npages_le_iff]
    exact hbound
  have himage1 : Image (leaf pt1) sz1 := by
    rw [hsz1]
    refine hl'.image.grown ?_ hbound (by rwa [hround, npages_mul])
    rw [← hsum]
    exact Nat.le_add_right _ _
  -- the guard page
  obtain ⟨pa0, -, hguard⟩ := hgrown.new (npages sz) le_rfl (by omega)
  have hclear : sz1 - (USERSTACK + 1) * PGSIZE = npages sz * PGSIZE := by
    rw [hsz1, show USERSTACK = 1 from rfl, PGSIZE_eq]
    omega
  refine wp_bind.mpr (wp_imp (h1.wp_mem (P := fun pt2 A' => A' = Vm.space pt2 + A ∧
    leaf pt2 = Function.update (leaf pt1) (npages sz) (some ⟨pa0, ⟨true, false, false⟩⟩))
    fun F hmem => ?_) ?_)
  · rw [hclear]
    refine wp_imp (wp_uvmclear (by omega) hguard hmem) ?_
    rintro pt2 mem ⟨hmem, hleaf⟩
    exact ⟨_, ⟨rfl, hleaf⟩, hmem⟩
  rintro pt2 k2 ⟨_, ⟨rfl, hleaf2⟩, h2⟩
  have himage2 : Image (leaf pt2) sz1 := by
    rw [hleaf2]
    refine himage1.update ?_ _
    rw [hsz1, npages_mul]
    omega
  -- the stack
  obtain ⟨pa1, hpa1, hstack⟩ := hgrown.new (npages sz + 1) (by omega) (by omega)
  have hpresent : Present pt2 (npages sz + 1) := by
    refine ⟨by omega, ⟨pa1, ⟨true, false, true⟩⟩, ?_, rfl, hpa1⟩
    rw [hleaf2, Function.update_of_ne (by omega), hstack]
  have hbase : sz1 - USERSTACK * PGSIZE = (npages sz + 1) * PGSIZE := by
    rw [hsz1, show USERSTACK = 1 from rfl, PGSIZE_eq]
    omega
  have hpages : ∀ sp n, sz1 - USERSTACK * PGSIZE ≤ sp → sp + n ≤ sz1 →
      ∀ v, sp / PGSIZE ≤ v → v * PGSIZE < sp + n → Present pt2 v := by
    intro sp n hlo hhi v hv hv'
    have heq : v = npages sz + 1 := by
      rw [hbase, PGSIZE_eq] at hlo
      rw [hsz1, PGSIZE_eq] at hhi
      rw [PGSIZE_eq] at hv hv'
      omega
    rw [heq]
    exact hpresent
  have htop : sz1 < 2 ^ 64 := by
    rw [hsz1, PGSIZE_eq]
    rw [NUSER_eq] at hmax
    omega
  have hbase' : PGSIZE ≤ sz1 - USERSTACK * PGSIZE := by
    rw [hbase, PGSIZE_eq]
    omega
  -- the arguments, and below them the array of their addresses
  refine wp_bind.mpr (wp_imp (wp_pushArgs hp htop hbase' hpages hargs (Nat.sub_le _ _) le_rfl
    (Nat.zero_le _) h2) ?_)
  rintro (_ | ⟨sp, ustack⟩) k3 ⟨h3, hr3⟩
  · exact wp_pure.mpr ⟨h3, himage2⟩
  obtain ⟨hlo, hhi, hcount, hcount'⟩ := hr3 sp ustack rfl
  have hdown : pushDown sp ((argv.length + 1) * 8) + (argv.length + 1) * 8 ≤ sp := by
    have hsp := hbase'.trans hlo
    refine pushDown_add_le ?_ (by omega)
    rw [show MAXARG = 32 from rfl] at hcount'
    rw [PGSIZE_eq] at hsp
    omega
  refine wp_ite.mpr ⟨fun _ => wp_pure.mpr ⟨h3, himage2⟩, fun hlow => ?_⟩
  refine wp_bind.mpr ((flows_copyoutNew hp ?_).andThen h3 fun ok k4 h4 => ?_)
  · refine hpages _ _ (Nat.le_of_not_lt hlow) ?_
    have hwords : ((ustack ++ [0]).flatMap (ByteBuffer.leBytes 8)).length =
        (argv.length + 1) * 8 := by
      simp [ByteBuffer.length_leBytes, hcount, Nat.succ_mul]
    rw [hwords]
    exact hdown.trans hhi
  · exact wp_ite.mpr ⟨fun _ => wp_pure.mpr ⟨h4, himage2⟩, fun _ => wp_pure.mpr ⟨h4, himage2⟩⟩

/-! ### The exchange -/

/-- **`commitImage`** exchanges the new image for the old one, which is freed. -/
theorem wp_commitImage {path : Fs.Path} {entry : Nat} (hp : u p = false)
    (himage : Image (leaf pt) sz) (h : Good L (Vm.space pt + A) u k) :
    wp (commitImage p path pt sz entry sp) (fun _ k' => Good L A u k') NotVm k := by
  obtain ⟨old, oldsz, tf, hspace, hold, htf, hopen⟩ := h.openSpace hp
  have hpt : (k.proc p).pagetable = some old := congrArg Space.pagetable hspace
  have hsz : (k.proc p).sz = oldsz := congrArg Space.sz hspace
  simp only [commitImage, wp_bind, wp_gets, id]
  refine wp_imp (hopen.wp_updProc ({ · with sz := sz, pagetable := some pt }) fun _ => rfl)
    fun _ k1 h1 => ?_
  rw [hpt, hsz]
  refine wp_imp (h1.wp_mem (P := fun _ A' _ => A' = Vm.space pt + ({tf} + A)) fun hmem => ?_) ?_
  · refine wp_imp (wp_procFreepagetable hold hmem) fun _ mem hmem => ⟨_, rfl, ?_⟩
    rwa [add_left_comm ({tf} : Multiset Nat)] at hmem
  · rintro _ k2 ⟨_, rfl, h2⟩
    exact (h2.closeSpace htf himage).of_update hp

/-- `proc_freepagetable` of the new image. -/
theorem wp_freeImage (himage : Image (leaf pt) sz) (h : Good L (Vm.space pt + A) u k) :
    wp (onMem (procFreepagetable pt sz)) (fun _ k' => Good L A u k') NotVm k := by
  refine wp_imp (h.wp_mem (P := fun _ A' => A' = A) fun F hmem => ?_) ?_
  · exact wp_imp (wp_procFreepagetable himage hmem) fun _ mem hmem => ⟨_, rfl, hmem⟩
  · rintro _ k' ⟨_, rfl, h'⟩
    exact h'

theorem flows_kexec (hp : u p = false) {path : Fs.Path} {argv : List (List UInt8)}
    (hargs : ∀ arg ∈ argv, arg.length < PGSIZE) : Flows L A u (kexec p path argv) := by
  refine .bind flows_onFs fun _ => .bind (.gets _) fun k => .bind flows_onFs fun r => ?_
  rcases r with _ | ip
  · exact .bind flows_onFs fun _ => .pure _
  refine .bind flows_onFs fun _ => ⟨fun k hk => ?_⟩
  refine wp_then (wp_loadImage hk) ?_
  rintro ⟨elf, _ | ⟨pt, sz, _ | _⟩⟩ k1 h1
  · exact flows_onFs.seq h1 fun _ k2 h2 => wp_pure.mpr h2
  · refine wp_then (wp_freeImage h1.2.image h1.1) fun _ k2 h2 => ?_
    exact flows_onFs.seq h2 fun _ k3 h3 => wp_pure.mpr h3
  · refine flows_onFs.seq h1.1 fun _ k2 h2 => ?_
    refine wp_then (wp_makeStack hp hargs h1.2 h2) ?_
    rintro ⟨pt', sz', _ | sp⟩ k3 ⟨h3, himage⟩
    · exact wp_then (wp_freeImage himage h3) fun _ k4 h4 => wp_pure.mpr h4
    · exact wp_then (wp_commitImage hp himage h3) fun _ k4 h4 => wp_pure.mpr h4

/-! ### sys_exec -/

theorem flows_fetchaddr (hp : u p = false) {addr : Nat} : Flows L A u (fetchaddr p addr) :=
  .bind (.gets _) fun _ => .ite (.pure _) (.bind (flows_copyin hp) fun _ => .pure _)

/-- The pages taken for the arguments are the running code's. -/
theorem wp_fetchArgs {uargv : Nat} {str : Nat → Option (List UInt8)} (hp : u p = false) (n i : Nat)
    {taken : List Nat} {args : List (List UInt8)} (hargs : ∀ arg ∈ args, arg.length < PGSIZE)
    (h : Good L (taken + A) u k) :
    wp (fetchArgs p uargv str n i taken args) (fun r k' => Good L (r.1 + A) u k' ∧
      ∀ args', r.2 = some args' → ∀ arg ∈ args', arg.length < PGSIZE) NotVm k := by
  induction n generalizing k i taken args with
  | zero => exact wp_pure.mpr ⟨h, by rintro _ ⟨⟩⟩
  | succ n ih =>
    simp only [fetchArgs, wp_bind]
    refine (flows_fetchaddr hp).andThen h fun r k1 h1 => ?_
    split
    · exact wp_pure.mpr ⟨h1, by rintro _ ⟨⟩⟩
    · refine wp_pure.mpr ⟨h1, ?_⟩
      rintro _ ⟨⟩
      exact hargs
    refine wp_then (wp_kalloc_good h1) ?_
    rintro page k2 ⟨-, ⟨hzero, h2⟩ | ⟨hne, h2⟩⟩
    · rw [if_pos hzero]
      exact wp_pure.mpr ⟨h2, by rintro _ ⟨⟩⟩
    rw [if_neg hne]
    have h2' : Good L (((taken ++ [page] : List Nat) : Multiset Nat) + A) u k2 := by
      rw [← Multiset.coe_add, Multiset.coe_singleton, add_right_comm,
        add_comm _ ({page} : Multiset Nat)]
      exact h2
    split
    · exact wp_pure.mpr ⟨h2', by rintro _ ⟨⟩⟩
    · rename_i s hs
      refine ih _ (fun arg harg => ?_) h2'
      rcases List.mem_append.mp harg with harg | harg
      · exact hargs arg harg
      · rw [List.mem_singleton.mp harg]
        simpa using (Option.filter_eq_some_iff.mp hs).2

theorem wp_freePages (taken : List Nat) (h : Good L (taken + A) u k) :
    wp (each (fun page => onMem (kfree page)) taken) (fun _ k' => Good L A u k') NotVm k := by
  induction taken generalizing k with
  | nil => exact wp_pure.mpr (by simpa using h)
  | cons page taken ih =>
    simp only [each, wp_bind]
    rw [← Multiset.cons_coe, Multiset.cons_add] at h
    exact wp_imp (wp_kfree_good h) fun _ k1 h1 => ih h1

theorem flows_sysExec (hp : u p = false) {path : Option Fs.Path} {uargv : Nat}
    {str : Nat → Option (List UInt8)} : Flows L A u (sysExec p path uargv str) := by
  rcases path with _ | path
  · exact .pure _
  refine ⟨fun k hk => ?_⟩
  simp only [sysExec, wp_bind]
  have h0 : Good L (([] : List Nat) + A) u k := by simpa using hk
  refine wp_imp (wp_fetchArgs hp _ _ (by rintro _ ⟨⟩) h0) ?_
  rintro ⟨taken, _ | args⟩ k1 ⟨h1, hargs⟩
  · exact wp_then (wp_freePages _ h1) fun _ k2 h2 => wp_pure.mpr h2
  · refine (flows_kexec hp (hargs args rfl)).seq h1 fun r k2 h2 => ?_
    exact wp_then (wp_freePages _ h2) fun _ k3 h3 => wp_pure.mpr h3

end Xv6.Kernel
