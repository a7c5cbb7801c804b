import JaeOS.Refine.Outer

/-!
# Stores and commands

Which words an entry stores in, and what it writes in the registers of the devices, in any
state.  SYS10 writes one command, behind its `P`; the interrupt of a device shifts the
bitmap of its line to the bit it finds, and writes one acknowledgement.  Nothing else is
written, and only a panic inside a system call keeps a command from being written.
-/

namespace JaeOS

open Function (update)

variable {n : ℕ} {M : Machine} {k k' : Kernel n} {p : Fin n} {r r' : Word → Word}
  {E : Stop → Kernel n → Prop} {e : Entry} {s : Stop}

namespace Machine

variable (M : Machine)

/-- The registers after the interrupt of a device on a line. -/
def acked (reg : Word → Word) (line : Word) : Word → Word :=
  match pendingDevice (reg (M.cdevBitmapAddr line)) with
  | none => reg
  | some i =>
    let found := M.afterFind reg line i
    match M.report found line (BitVec.ofNat 32 i) with
    | some c => M.devWrite found c.ack M.devCAck
    | none => found

/-- The semaphore of the device on a line.  For a terminal without a completion, the line
itself is taken for the row of `g_dev_s`. -/
def deviceCells (reg : Word → Word) (line : Word) : List Word :=
  match pendingDevice (reg (M.cdevBitmapAddr line)) with
  | none => []
  | some i => [((M.report (M.afterFind reg line i) line (BitVec.ofNat 32 i)).elim
      (M.devSem line (BitVec.ofNat 32 i)) Completion.sem)]

end Machine

/-- With a line or a number that no device has, SYS10 computes the address of a command
anywhere. -/
def Entry.strays (M : Machine) : Entry → List Word
  | .sysBP old =>
    if (Entry.sysBP old).Sys M ioDevopNr ∧ M.isReg (ioReg M old.a3 old.a4) = false then
      [ioReg M old.a3 old.a4]
    else []
  | _ => []

namespace Kernel

variable (k : Kernel n)

/-- The words an entry may store an `int` in. -/
def ints (M : Machine) : Entry → List Word
  | .sysBP old =>
    if M.causeExcCodeGet old.cp15Cause = M.excSyscall ∧ M.kernelMode old.cpsr = true then
      sysCells M old
    else []
  | .interrupt _ cause =>
    match M.pendingLine cause with
    | none => []
    | some line => if line = ilTimer then [M.gPcTimerS] else M.deviceCells k.reg line
  | _ => []

/-- The words an entry may store in, besides the word for the debugger. -/
def cells (M : Machine) (e : Entry) : List Word := k.ints M e ++ e.strays M

/-- No `int` is stored in a register of a device. -/
def IntsApart (M : Machine) (e : Entry) : Prop :=
  ∀ a ∈ k.ints M e, M.isReg a = true → M.nucleus a = true

/-- The registers of the devices after an entry. -/
def regAfter (M : Machine) (e : Entry) : Word → Word :=
  match e with
  | .sysBP old =>
    if e.Sys M ioDevopNr ∧ M.isReg (ioReg M old.a3 old.a4) = true then
      M.devWrite k.reg (ioReg M old.a3 old.a4) old.a2
    else k.reg
  | .interrupt _ cause =>
    match M.pendingLine cause with
    | none => k.reg
    | some line => if line = ilTimer then k.reg else M.acked k.reg line
  | _ => k.reg

/-- Nothing has been stored outside the words of the entry. -/
def Spared (M : Machine) (e : Entry) (k' : Kernel n) : Prop :=
  ∀ a, a ∉ k.cells M e → a ≠ 0x00011114 → k'.mem a = k.mem a

end Kernel

/-- What an entry has stored, and what it has told the devices, when it stops. -/
structure Emits (M : Machine) (k : Kernel n) (e : Entry) (s : Stop) (k' : Kernel n) : Prop where
  mem : ∀ a, a ∉ k.cells M e → a ≠ 0x00011114 → k'.mem a = k.mem a
  panic : k.IntsApart M e → ∀ site, s = .panic site → site ≠ .deadlock → k'.reg = k.reg
  done : k.IntsApart M e → (∀ f, s ≠ .fault f) → (∀ site, s = .panic site → site = .deadlock) →
    k'.reg = k.regAfter M e

/-- Nothing has been stored outside the words of the entry, and the registers are `r`. -/
structure Outside (M : Machine) (k : Kernel n) (e : Entry) (r : Word → Word)
    (k' : Kernel n) : Prop where
  mem : k.Spared M e k'
  reg : k.IntsApart M e → k'.reg = r

theorem Outside.outer {k'' : Kernel n} (h : Outside M k e r k') (ho : k''.outer = k'.outer) :
    Outside M k e r k'' := by
  have hmem : k''.mem = k'.mem := congrArg Outer.mem ho
  have hreg : k''.reg = k'.reg := congrArg Outer.reg ho
  exact ⟨fun a ha hpid => (congrFun hmem a).trans (h.mem a ha hpid),
    fun hapart => hreg.trans (h.reg hapart)⟩

theorem Kernel.Spared.store {a v : Word} (h : k.Spared M e k')
    (ha : a ∈ k.cells M e ∨ a = 0x00011114) (b : Word) (hb : b ∉ k.cells M e)
    (hpid : b ≠ 0x00011114) : update k'.mem a v b = k.mem b := by
  have hne : b ≠ a := by
    rintro rfl
    exact ha.elim hb hpid
  exact (Function.update_of_ne hne ..).trans (h b hb hpid)

theorem emits_fault {f : Fault} (h : k.Spared M e k') : Emits M k e (.fault f) k' :=
  ⟨h, fun _ _ hs => absurd hs (by simp), fun _ hs => absurd rfl (hs f)⟩

theorem sealed_outside :
    Sealed M {a | a ∈ k.ints M e} {a | a ∈ k.cells M e ∨ a = 0x00011114} (Outside M k e r)
      (Emits M k e) where
  outer h ho := h.outer ho
  write := by
    intro k' a v ha h
    refine ⟨h.mem.store (.inl (List.mem_append_left _ ha)), fun hapart => ?_⟩
    have hstore : M.regStore k'.reg a v = k'.reg := by
      rw [Machine.regStore]
      refine if_neg (fun hreg => ?_)
      simp only [Bool.and_eq_true, Bool.not_eq_true'] at hreg
      exact absurd (hapart a ha hreg.1) (by simp [hreg.2])
    exact hstore.trans (h.reg hapart)
  word v ha h := ⟨h.mem.store ha, h.reg⟩
  fault _ h := emits_fault h.mem

theorem exits_outside : Exits (Outside M k e (k.regAfter M e)) (Emits M k e) :=
  fun _ hs h => ⟨h.mem, fun _ site hsite hne => absurd (hs site hsite) hne,
    fun hapart _ _ => h.reg hapart⟩

theorem panics_outside : Panics (Outside M k e k.reg) (Emits M k e) :=
  fun _ hne h => ⟨h.mem, fun hapart _ _ _ => h.reg hapart, fun _ _ hs => absurd (hs _ rfl) hne⟩

/-! ### The handlers -/

theorem emits_run {x : K n Unit} {k₀ : Kernel n}
    (h : wp x (fun _ => k.Spared M e) (Emits M k e) k₀) :
    Emits M k e (runToStop x k₀).stop (runToStop x k₀).k := by
  rw [wp] at h
  rw [runToStop]
  cases hx : x k₀ with
  | ok _ k' =>
    rw [hx] at h
    exact emits_fault h
  | error s k' =>
    rw [hx] at h
    exact h

theorem wp_leaveHandler_emits {k₁ : Kernel n} (h : Outside M k e (k.regAfter M e) k₁) :
    wp (leaveHandler M) (fun _ => k.Spared M e) (Emits M k e) k₁ :=
  wp_mono (sealed_outside.leaveHandler exits_outside (.inr rfl) k₁ h)
    (fun _ _ h => h.mem) (fun _ _ h => h)

theorem wp_exit_emits {k₁ : Kernel n} {flag : Bool}
    (h : Outside M k e (k.regAfter M e) k₁) :
    wp (leaveHandler M) (fun _ => k.Spared M e) (Emits M k e) (k₁.onExit M flag) :=
  wp_leaveHandler_emits (h.outer (onExit_outer flag))

theorem outside_start : Outside M k e k.reg (k.start M p e) := by
  cases e <;> exact ⟨fun _ _ _ => congrFun (congrArg Outer.mem onEnter_outer) _,
    fun _ => congrArg Outer.reg onEnter_outer⟩

theorem calls_outside {old : ProcState}
    (hsys : M.causeExcCodeGet old.cp15Cause = M.excSyscall)
    (hmode : M.kernelMode old.cpsr = true) :
    Calls M old {a | a ∈ k.ints M (.sysBP old)} (Outside M k (.sysBP old) k.reg)
      (Outside M k (.sysBP old) (k.regAfter M (.sysBP old))) where
  cells := by
    have hints : k.ints M (.sysBP old) = sysCells M old := if_pos ⟨hsys, hmode⟩
    intro a ha
    change a ∈ k.ints M (.sysBP old)
    rw [hints]
    exact ha
  ret _ _ _ h := ⟨h.mem, h.reg⟩
  load _ _ _ h := ⟨h.mem, h.reg⟩
  command := by
    intro hio k₁ h₁
    have hcall : (Entry.sysBP old).Sys M ioDevopNr := ⟨hsys, hmode, hio⟩
    rw [Kernel.command]
    cases hreg : M.isReg (ioReg M old.a3 old.a4) with
    | true =>
      have hafter : k.regAfter M (.sysBP old) =
          M.devWrite k.reg (ioReg M old.a3 old.a4) old.a2 := if_pos ⟨hcall, hreg⟩
      refine ⟨h₁.mem, fun hapart => ?_⟩
      rw [hafter, ← h₁.reg hapart]
      rfl
    | false =>
      have hafter : k.regAfter M (.sysBP old) = k.reg :=
        if_neg (fun h => absurd h.2 (by simp [hreg]))
      have hcell : ioReg M old.a3 old.a4 ∈ k.cells M (.sysBP old) := by
        refine List.mem_append_right _ ?_
        rw [Entry.strays, if_pos ⟨hcall, hreg⟩]
        exact List.mem_singleton_self _
      exact ⟨h₁.mem.store (.inl hcell), fun hapart => (h₁.reg hapart).trans hafter.symm⟩
  others := by
    intro hio k₁ h₁
    have hreg : k.regAfter M (.sysBP old) = k.reg := if_neg (fun hcall => hio hcall.1.2.2)
    exact ⟨h₁.mem, fun hapart => (h₁.reg hapart).trans hreg.symm⟩

/-- The registers are as they were after an exception that is no system call of the kernel. -/
theorem regAfter_of_not {old : ProcState} (h : ¬ (Entry.sysBP old).Sys M ioDevopNr) :
    k.regAfter M (.sysBP old) = k.reg := if_neg (fun hcall => h hcall.1)

theorem wp_sysBP_emits {old : ProcState} (hp : k.gCurrentProcess = some p) :
    wp (handler M (.sysBP old)) (fun _ => k.Spared M (.sysBP old)) (Emits M k (.sysBP old)) k := by
  have hstart : Outside M k (.sysBP old) k.reg (k.start M p (.sysBP old)) := outside_start
  have hS := sealed_outside (M := M) (k := k) (e := .sysBP old) (r := k.reg)
  by_cases hsys : M.causeExcCodeGet old.cp15Cause = M.excSyscall
  · rw [wp_handler_call hp hsys]
    refine wp_if (fun hrange => wp_if (fun hmode => ?_) (fun hmode => ?_)) (fun hrange => ?_)
    · have hold : (k.start M p (.sysBP old)).sysbold = old := Kernel.start_sysbold
      refine wp_mono (hS.defSys panics_outside hstart ?_) (fun _ _ h => wp_exit_emits h)
        (fun _ _ h => h)
      rw [hold]
      exact calls_outside hsys hmode
    · have hreg : k.regAfter M (.sysBP old) = k.reg :=
        regAfter_of_not (fun hcall => hmode hcall.2.1)
      rw [← hreg] at hstart
      refine wp_mono (sealed_outside.userModeSys (fun _ _ h => ⟨h.mem, h.reg⟩) exits_outside (.inr rfl)
        _ hstart) (fun _ _ h => wp_exit_emits h) (fun _ _ h => h)
    · have hreg : k.regAfter M (.sysBP old) = k.reg := by
        refine regAfter_of_not (fun hcall => hrange ?_)
        rw [hcall.2.2]
        decide
      rw [← hreg] at hstart
      exact wp_mono (sealed_outside.sysAboveBP (fun _ _ h => ⟨h.mem, h.reg⟩) _ hstart)
        (fun _ _ h => wp_exit_emits h) (fun _ _ h => h)
  · have hreg : k.regAfter M (.sysBP old) = k.reg := regAfter_of_not (fun hcall => hsys hcall.1)
    by_cases hbrk : M.causeExcCodeGet old.cp15Cause = M.excBreakpoint
    · rw [wp_handler_break hp hsys hbrk]
      rw [← hreg] at hstart
      exact wp_mono (sealed_outside.sysAboveBP (fun _ _ h => ⟨h.mem, h.reg⟩) _ hstart)
        (fun _ _ h => wp_exit_emits h) (fun _ _ h => h)
    · rw [wp_handler_bad hp hsys hbrk]
      exact panics_outside _ (by simp) ⟨fun _ _ _ => rfl, fun _ => rfl⟩

theorem wp_trap_emits {check : Hdl} {k₁ : Kernel n}
    (h : Outside M k e (k.regAfter M e) k₁) :
    wp (do commonSubHandler M check; leaveHandler M) (fun _ => k.Spared M e) (Emits M k e) k₁ := by
  apply (sealed_outside.commonSubHandler (fun _ _ h => ⟨h.mem, h.reg⟩)).seq h
  exact fun _ _ h' => wp_leaveHandler_emits h'

/-- The registers after the acknowledgement of a device, and its semaphore. -/
theorem wp_ackDevice_outside {line dev : Word} {i : ℕ} {found : Word → Word}
    (hline : devIlStart ≤ line ∧ line ≤ ilTerminal) (hi : i < 8) (hdev : dev = BitVec.ofNat 32 i)
    (h : k.Spared M e k') (hreg : k'.reg = found) :
    wp (ackDevice M line dev)
      (fun r k₁ => Outside M k e (match M.report found line dev with
          | some c => M.devWrite found c.ack M.devCAck
          | none => found) k₁ ∧
        M.devSem r.1 dev = (M.report found line dev).elim (M.devSem line dev) Completion.sem)
      (Emits M k e) k' := by
  have hwrite : ∀ {k₀ : Kernel n} {off : Word}, k₀ = k' → [0, 4, 8, 12].contains off = true →
      wp (writeReg M (M.devRegAddr line dev + off) M.devCAck)
        (fun _ => Outside M k e (M.devWrite found (M.devRegAddr line dev + off) M.devCAck))
        (Emits M k e) k₀ := by
    rintro k₀ off rfl hoff
    rw [writeReg, hdev, if_pos (Machine.isReg_devRegAddr hline hi hoff)]
    refine wp_if (fun _ => emits_fault h) (fun _ => ⟨h, fun _ => ?_⟩)
    rw [← hreg]
  rw [ackDevice, Machine.report, wp_ite]
  split_ifs with hterm hrecv htransm
  · rw [wp_bind, wp_get, wp_bind, wp_get, wp_ite, hreg, if_pos hrecv, wp_bind]
    exact wp_mono (hwrite rfl (by decide)) (fun _ _ h => ⟨h, rfl⟩) (fun _ _ h => h)
  · rw [wp_bind, wp_get, wp_bind, wp_get, wp_ite, hreg, if_neg hrecv, wp_ite, if_pos htransm, wp_bind]
    exact wp_mono (hwrite rfl (by decide)) (fun _ _ h => ⟨h, rfl⟩) (fun _ _ h => h)
  · rw [wp_bind, wp_get, wp_bind, wp_get, wp_ite, hreg, if_neg hrecv, wp_ite, if_neg htransm]
    exact ⟨⟨h, fun _ => hreg⟩, rfl⟩
  · rw [wp_bind]
    exact wp_mono (hwrite rfl (by decide)) (fun _ _ h => ⟨h, rfl⟩) (fun _ _ h => h)

/-- The interrupt of a device: the bitmap, the acknowledgement, and the `V`. -/
theorem wp_handleDevices_outside {old : ProcState} {cause line : Word}
    (hline : M.pendingLine cause = some line) (htimer : line ≠ ilTimer)
    (h : k.Spared M (.interrupt old cause) k') (hfound : k'.reg = k.reg) :
    wp (handleDevices M line)
      (fun _ => Outside M k (.interrupt old cause) (k.regAfter M (.interrupt old cause)))
      (Emits M k (.interrupt old cause)) k' := by
  have hreg : k.regAfter M (.interrupt old cause) = M.acked k.reg line := by
    rw [Kernel.regAfter, hline]
    exact if_neg htimer
  have hints : k.ints M (.interrupt old cause) = M.deviceCells k.reg line := by
    rw [Kernel.ints, hline]
    exact if_neg htimer
  rw [handleDevices, wp_bind]
  refine wp_findDevice le_rfl (fun i hi => ?_) (fun _ r => emits_fault h)
  simp only [wp_bind, Nat.zero_add, show 8 - nDevPerIl.toNat = 0 from rfl]
  rw [hfound] at hi ⊢
  have hpending : pendingDevice (k.reg (M.cdevBitmapAddr line)) = some i := hi
  rw [Machine.acked, hpending] at hreg
  rw [Machine.deviceCells, hpending] at hints
  dsimp only at hreg hints
  change wp _ _ _ { k' with reg := M.afterFind k.reg line i }
  generalize M.afterFind k.reg line i = found at hreg hints ⊢
  refine wp_mono (wp_ackDevice_outside (pendingLine_device hline htimer)
    (lt_of_pendingDevice hpending) rfl h rfl) ?_ (fun _ _ h => h)
  rintro ⟨row, st⟩ k₁ ⟨h₂, hrow⟩
  rw [← hreg] at h₂
  refine sealed_outside.signalDevice ?_ k₁ h₂
  change M.devSem row _ ∈ k.ints M (.interrupt old cause)
  rw [hints, hrow]
  exact List.mem_singleton_self _

theorem wp_interrupt_emits {old : ProcState} {cause : Word} :
    wp (handler M (.interrupt old cause)) (fun _ => k.Spared M (.interrupt old cause))
      (Emits M k (.interrupt old cause)) k := by
  have hS := sealed_outside (M := M) (k := k) (e := .interrupt old cause) (r := k.reg)
  have hout := sealed_outside (M := M) (k := k) (e := .interrupt old cause)
    (r := k.regAfter M (.interrupt old cause))
  rw [handler, wp_bind, wp_modify, interruptExceptionHandler, wp_bind, wp_modify, ← bind_assoc,
    wp_bind, wp_onEnter]
  have hstart : Outside M k (.interrupt old cause) k.reg
      (Kernel.onEnter M { k with intold := { old with pc := old.pc - 4 } }) :=
    ⟨fun _ _ _ => congrFun (congrArg Outer.mem onEnter_outer) _,
      fun _ => congrArg Outer.reg onEnter_outer⟩
  have hfound : (Kernel.onEnter M { k with intold := { old with pc := old.pc - 4 } }).reg = k.reg :=
    congrArg Outer.reg onEnter_outer
  change wp _ _ _ (Kernel.onEnter M { k with intold := { old with pc := old.pc - 4 } })
  generalize Kernel.onEnter M { k with intold := { old with pc := old.pc - 4 } } = k₁ at hstart hfound ⊢
  rw [wp_bind, wp_modify, wp_bind]
  have hwork : ∀ k₂, Outside M k (.interrupt old cause) k.reg k₂ → k₂.reg = k.reg →
      wp (dispatchInterrupt M cause)
        (fun _ => Outside M k (.interrupt old cause) (k.regAfter M (.interrupt old cause)))
        (Emits M k (.interrupt old cause)) k₂ := by
    intro k₂ h₂ hsame
    rw [dispatchInterrupt_eq]
    cases hline : M.pendingLine cause with
    | none =>
      have hreg : k.regAfter M (.interrupt old cause) = k.reg := by rw [Kernel.regAfter, hline]
      rw [hreg]
      exact h₂
    | some line =>
      dsimp only
      refine wp_if (fun htimer => ?_) (fun htimer => wp_handleDevices_outside hline htimer h₂.mem hsame)
      have hreg : k.regAfter M (.interrupt old cause) = k.reg := by
        rw [Kernel.regAfter, hline]
        exact if_pos htimer
      have hints : k.ints M (.interrupt old cause) = [M.gPcTimerS] := by
        rw [Kernel.ints, hline]
        exact if_pos htimer
      rw [hreg]
      refine hS.handleTimer ?_ k₂ h₂
      change M.gPcTimerS ∈ k.ints M (.interrupt old cause)
      rw [hints]
      exact List.mem_singleton_self _
  refine wp_mono (hwork _ (hstart.outer ?_) ?_) ?_ (fun _ _ h => h)
  · cases k₁.gCurrentProcess <;> rfl
  · cases k₁.gCurrentProcess <;> exact hfound
  intro _ k₂ h₂
  rw [← bind_assoc]
  apply hout.exit.seq h₂
  intro _ k₃ h₃
  rw [wp_bind, wp_get]
  cases k₃.gCurrentProcess with
  | none =>
    exact wp_mono (hout.scheduler exits_outside (.inr rfl) k₃ h₃) (fun _ _ h => h.mem)
      (fun _ _ h => h)
  | some p => exact exits_outside _ (by simp) h₃

end JaeOS
