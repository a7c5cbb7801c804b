import JaeOS.Refine.Run

/-!
# A concrete machine

`uarm` is a `Machine` with the values of the uARM headers, device registers that
keep what is stored in them, and one possible placement of the kernel's data.
Runs on it are lists of events; `trace` follows one, as long as its entries are
allowed.
-/

namespace JaeOS

open Function (update)

variable {n : ℕ}

/-- The numbers and macros of uARM, and a linker that puts `g_dev_s`,
`g_pc_timer_s` and `semdTable` one after the other. -/
def uarm : Machine where
  causeExcCodeGet c := c &&& 0xFFFFFF
  causeExcCodeSet c e := (c &&& 0xFF000000) ||| e
  causeIpGet c line := (c >>> (line + 24)) &&& 1 == 1
  excSyscall := 8
  excBreakpoint := 9
  excReservedInstr := 10
  statusSysMode := 0x1F
  statusAllIntEnable s := s &&& 0xFFFFFF3F
  cp15EnableVM c := c ||| 1
  cp15DisableVM c := c &&& 0xFFFFFFFE
  entryHiAsidGet e := (e >>> 5) &&& 0x7F
  entryHiAsidSet e a := (e &&& 0xFFFFF01F) ||| (a <<< 5)
  devRegAddr line dev := 0x40 + (line - 3) * 0x80 + dev * 0x10
  cdevBitmapAddr line := 0x6FE0 + (line - 3) * 4
  devTrcvSCharRecv := 5
  devTrcvSRecvErr := 4
  devTtrsSCharTrsm := 5
  devTtrsSTrsmErr := 4
  devCAck := 1
  ramTop := 0x00100000
  frameSize := 4096
  test := 0x8000
  readState mem a := { ProcState.zero with a1 := mem a }
  gDevS := 0x10000
  gPcTimerS := 0x10200
  semdTable d := 0x10300 + 12 * BitVec.ofNat 32 d.val
  kernelData a := decide (0x10300 ≤ a) && decide (a < 0x11000)
  devWrite reg a v := update reg a v
  tod i := 6000 * i

theorem layout_uarm : Layout uarm := ⟨by decide, by decide⟩

/-! ### Events -/

/-- An entry with memory and device registers clear. -/
def Entry.event (e : Entry) : Event := ⟨e, fun _ => 0, fun _ => 0, 0⟩

/-- A system call of the kernel mode. -/
def sys (a1 a2 a3 a4 : Word) : Event :=
  (Entry.sysBP { ProcState.zero with
    a1 := a1, a2 := a2, a3 := a3, a4 := a4, cpsr := 0x1F, cp15Cause := 8 }).event

/-- An interrupt on a line. -/
def interruptOn (line : Word) : Entry := .interrupt .zero ((1 : Word) <<< (line + 24))

/-- The end of the interval. -/
def timerInterrupt : Event := (interruptOn ilTimer).event

/-- The registers when the device `dev` of a line has a status word to report. -/
def deviceInterrupt (line dev status : Word) : Event :=
  { (interruptOn line).event with
    reg := update (update (fun _ => 0) (uarm.cdevBitmapAddr line) ((1 : Word) <<< dev))
      (uarm.status line dev) status }

/-! ### Runs -/

/-- `Kernel.Legal`, as a test. -/
def Kernel.legal (M : Machine) (k : Kernel n) (e : Entry) : Bool :=
  (k.addresses M e).all (fun a => !M.kernelData a) && (!e.isInterrupt || k.task M e != .stuck)

theorem Kernel.legal_iff {M : Machine} {k : Kernel n} {e : Entry} :
    k.legal M e = true ↔ k.Legal M e := by
  rw [Kernel.legal, Bool.and_eq_true, List.all_eq_true, Bool.or_eq_true, bne_iff_ne]
  simp only [Bool.not_eq_true']
  refine ⟨fun h => ⟨h.1, fun he => h.2.resolve_left (by simp [he])⟩, fun h => ⟨h.outside, ?_⟩⟩
  cases he : e.isInterrupt with
  | false => exact .inl rfl
  | true => exact .inr (h.genuine he)

/-- `CanTake`, as a test. -/
def Config.canTake (c : Config n) (ev : Event) : Bool :=
  match c.stop with
  | .ldst _ => true
  | .wait => ev.entry.isInterrupt
  | _ => false

theorem Config.canTake_iff {c : Config n} {ev : Event} : c.canTake ev = true ↔ CanTake c ev := by
  rw [Config.canTake, CanTake]
  cases c.stop <;> simp

/-- Follow a list of events as long as they are allowed, and test the last state. -/
def trace (M : Machine) (ok : Kernel maxProc → Entry → Bool) (P : Config maxProc → Bool) :
    Config maxProc → List Event → Bool
  | c, [] => P c
  | c, e :: es => c.canTake e && ok (c.k.atEntry M e) e.entry && trace M ok P (step M c e) es

/-- **A list of allowed events is a run.** -/
theorem reaches_foldl {M : Machine} {ok : Kernel maxProc → Entry → Prop}
    {test : Kernel maxProc → Entry → Bool} (htest : ∀ k e, test k e = true → ok k e)
    (es : List Event) (P : Config maxProc → Bool) {c : Config maxProc} {L : Set (Fin maxProc)}
    (h : Reaches M ok c L) (hP : trace M test P c es = true) :
    ∃ L', Reaches M ok (es.foldl (step M) c) L' ∧ P (es.foldl (step M) c) = true := by
  induction es generalizing c L with
  | nil => exact ⟨L, h, hP⟩
  | cons e es ih =>
    rw [trace, Bool.and_eq_true, Bool.and_eq_true] at hP
    obtain ⟨⟨htake, hok⟩, hrest⟩ := hP
    exact ih (h.step (Config.canTake_iff.mp htake) (htest _ _ hok)) hrest

theorem reaches_trace {M : Machine} {ok : Kernel maxProc → Entry → Prop}
    {test : Kernel maxProc → Entry → Bool} (htest : ∀ k e, test k e = true → ok k e)
    (es : List Event) (P : Config maxProc → Bool) {c : Config maxProc} {L : Set (Fin maxProc)}
    (h : Reaches M ok c L) (hP : trace M test P c es = true) :
    ∃ c' L', Reaches M ok c' L' ∧ P c' = true :=
  ⟨_, reaches_foldl htest es P h hP⟩

/-- The state after a list of events. -/
def afterAll (M : Machine) (es : List Event) : Config maxProc := es.foldl (step M) (boot M)

theorem reaches_afterAll {M : Machine} {ok : Kernel maxProc → Entry → Prop}
    {test : Kernel maxProc → Entry → Bool} (htest : ∀ k e, test k e = true → ok k e)
    (es : List Event) (P : Config maxProc → Bool) (hP : trace M test P (boot M) es = true) :
    ∃ L, Reaches M ok (afterAll M es) L ∧ P (afterAll M es) = true :=
  reaches_foldl htest es P .boot hP

theorem reaches_legal (es : List Event) (P : Config maxProc → Bool)
    (hP : trace uarm (fun k e => k.legal uarm e) P (boot uarm) es = true) :
    ∃ c L, Reaches uarm (fun k e => k.Legal uarm e) c L ∧ P c = true :=
  reaches_trace (fun _ _ => Kernel.legal_iff.mp) es P .boot hP

/-- A legal entry that terminates nobody, and no tick without a current process. -/
def Kernel.calm (M : Machine) (k : Kernel n) (e : Entry) : Bool :=
  k.legal M e &&
    match k.task M e with
    | .kill _ => false
    | .tick => k.gCurrentProcess.isSome
    | _ => true

theorem Kernel.Admits.of_calm {M : Machine} {k : Kernel n} {e : Entry} (h : k.calm M e = true) :
    k.Admits M e ∧ ∀ root, k.task M e ≠ .kill root := by
  rw [Kernel.calm, Bool.and_eq_true] at h
  obtain ⟨hlegal, hcalm⟩ := h
  have hkill : ∀ root, k.task M e ≠ .kill root := by
    intro root ht
    rw [ht] at hcalm
    exact nomatch hcalm
  refine ⟨⟨Kernel.legal_iff.mp hlegal, ?_, ?_⟩, hkill⟩
  · intro ht hnone
    rw [ht, hnone] at hcalm
    exact nomatch hcalm
  · intro root ht
    exact absurd ht (hkill root)

/-- A legal entry that ends processes only while nobody is ready or no block has a `p_cursem`,
and no tick without a current process. -/
def Kernel.tame (M : Machine) (k : Kernel n) (e : Entry) : Bool :=
  k.legal M e &&
    match k.task M e with
    | .kill _ => k.gReadyQueue.isNone || decide (∀ q, k.pCursem q = none)
    | .tick => k.gCurrentProcess.isSome
    | _ => true

theorem Kernel.Admits.of_tame {M : Machine} {k : Kernel n} {e : Entry} (h : k.tame M e = true) :
    k.Admits M e := by
  rw [Kernel.tame, Bool.and_eq_true] at h
  obtain ⟨hlegal, htame⟩ := h
  refine ⟨Kernel.legal_iff.mp hlegal, ?_, ?_⟩
  · intro ht hnone
    rw [ht, hnone] at htame
    exact nomatch htame
  · rintro root ht q - ⟨⟨xs, hxs, hq⟩, hcs⟩
    rw [ht, Bool.or_eq_true, Option.isNone_iff_eq_none, decide_eq_true_eq] at htame
    rcases htame with hnone | hnone
    · rw [hxs.unique (Clist.holds_nil hnone)] at hq
      exact absurd hq List.not_mem_nil
    · exact hcs (hnone q)

/-- A child waits for a unit, gets it, waits again and is ended by its parent.  Another child
waits for a unit, and the parent for the pseudo-clock. -/
def comeAndGo : List Event :=
  [sys 1 0 0 0, timerInterrupt, sys 3 0x20000 (-1) 0, sys 3 0x20000 1 0, timerInterrupt,
    sys 3 0x20000 (-1) 0, sys 2 66 0 0, sys 1 0 0 0, timerInterrupt, sys 3 0x20004 (-1) 0,
    sys 9 0 0 0]

theorem reaches_tame (es : List Event) (P : Config maxProc → Bool)
    (hP : trace uarm (fun k e => k.tame uarm e) P (boot uarm) es = true) :
    ∃ c L, Reaches uarm (fun k e => k.Admits uarm e) c L ∧ P c = true :=
  reaches_trace (fun _ _ h => .of_tame h) es P .boot hP

/-! ### Queues of a state -/

/-- The queue of the descriptor at the end of the active list. -/
theorem Snap.waiting_eq {k : Kernel n} {σ : Snap n} {d : Semd} {xs : List (Fin n)}
    (hσ : σ.core = k.core) (hd : k.aslh = some d) (hq : k.Queue (.sProcq d) xs) :
    σ.waiting (k.sSemAdd d) = xs := by
  have h := Snap.owned_of_core hσ
  have hmem : d ∈ σ.asl := List.mem_of_getLast? (h.blocked.aslh.tail_eq.symm.trans hd)
  exact (h.blocked.procq d hmem).unique hq

theorem queue_singleton {s : Queues n} {q : ProcQ} {p : Fin n} (ht : (s.procQ q).tail = some p)
    (hp : s.pList p = some p) : s.Queue q [p] :=
  Clist.holds_singleton ht (by rwa [procQ_next])

theorem queue_pair {s : Queues n} {q : ProcQ} {p r : Fin n} (ht : (s.procQ q).tail = some r)
    (hr : s.pList r = some p) (hp : s.pList p = some r) (hne : p ≠ r) : s.Queue q [p, r] := by
  refine ⟨by simpa using hne, ht, ?_⟩
  rw [ht, procQ_next]
  exact links_cons_cons.mpr ⟨hr, links_cons_cons.mpr ⟨hp, links_singleton _ _⟩⟩

end JaeOS
