import Mathlib.Data.BitVec
import Mathlib.Tactic

/-!
# Attaching a program

What `syscall.c` checks when a program is loaded, and again when it is attached: the attach type
that the load announces, the types of program that an attach type takes, and the capability that a
`cgroup_skb` program needs.
-/
namespace BpfVerify.ProgAttach

def einval : ℤ := 22
def eperm : ℤ := 1

/-- `enum bpf_prog_type`; the value `k` places past the last enumerator is `other k`. -/
inductive ProgType
  | unspec | socketFilter | kprobe | schedCls | schedAct | tracepoint | xdp | perfEvent
  | cgroupSkb | cgroupSock | lwtIn | lwtOut | lwtXmit | sockOps | skSkb | cgroupDevice | skMsg
  | rawTracepoint | cgroupSockAddr | lwtSeg6local | lircMode2 | skReuseport | flowDissector
  | cgroupSysctl | rawTracepointWritable | cgroupSockopt | tracing | structOps | ext | lsm
  | skLookup | syscall | netfilter
  | other (k : ℕ)
  deriving DecidableEq

/-- `enum bpf_attach_type`. Its zero is `cgroupInetIngress`. -/
inductive AttachType
  | cgroupInetIngress | cgroupInetEgress | cgroupInetSockCreate | cgroupSockOps
  | skSkbStreamParser | skSkbStreamVerdict | cgroupDevice | skMsgVerdict | cgroupInet4Bind
  | cgroupInet6Bind | cgroupInet4Connect | cgroupInet6Connect | cgroupInet4PostBind
  | cgroupInet6PostBind | cgroupUdp4Sendmsg | cgroupUdp6Sendmsg | lircMode2 | flowDissector
  | cgroupSysctl | cgroupUdp4Recvmsg | cgroupUdp6Recvmsg | cgroupGetsockopt | cgroupSetsockopt
  | traceRawTp | traceFentry | traceFexit | modifyReturn | lsmMac | traceIter
  | cgroupInet4Getpeername | cgroupInet6Getpeername | cgroupInet4Getsockname
  | cgroupInet6Getsockname | xdpDevmap | cgroupInetSockRelease | xdpCpumap | skLookup | xdp
  | skSkbVerdict | skReuseportSelect | skReuseportSelectOrMigrate | perfEvent | traceKprobeMulti
  | lsmCgroup | structOps | netfilter | tcxIngress | tcxEgress | traceUprobeMulti
  | cgroupUnixConnect | cgroupUnixSendmsg | cgroupUnixRecvmsg | cgroupUnixGetpeername
  | cgroupUnixGetsockname | netkitPrimary | netkitPeer | traceKprobeSession | traceUprobeSession
  | traceFsession | traceFentryMulti | traceFexitMulti | traceFsessionMulti
  | other (k : ℕ)
  deriving DecidableEq

/-- `BPF_ATTACH_TYPE_UNSPEC` does not exist: a load that announces nothing has the first one. -/
def AttachType.zero : AttachType := .cgroupInetIngress

structure BpfToken where
  capNetAdmin : Bool
  capSysAdmin : Bool

inductive Cap
  | netAdmin | other (cap : ℕ)
  deriving DecidableEq

def bpfTokenCapable (token : Option BpfToken) (cap : Cap) : Bool :=
  if token.any (·.capSysAdmin) then true
  else if cap = .netAdmin then token.any (·.capNetAdmin)
  else false

structure BpfAttr where
  progType : ProgType
  expectedAttachType : AttachType

def fixupAttachType (attr : BpfAttr) : BpfAttr :=
  match attr.progType with
  | .cgroupSock =>
    if attr.expectedAttachType = .zero then
      { attr with expectedAttachType := .cgroupInetSockCreate }
    else attr
  | .skReuseport =>
    if attr.expectedAttachType = .zero then { attr with expectedAttachType := .skReuseportSelect }
    else attr
  | _ => attr

/-- The last switch of `bpf_prog_load_check_attach`. -/
def checkExpected (progType : ProgType) (expectedAttachType : AttachType) : ℤ :=
  match progType with
  | .cgroupSock =>
    match expectedAttachType with
    | .cgroupInetSockCreate | .cgroupInetSockRelease | .cgroupInet4PostBind
    | .cgroupInet6PostBind => 0
    | _ => -einval
  | .cgroupSockAddr =>
    match expectedAttachType with
    | .cgroupInet4Bind | .cgroupInet6Bind | .cgroupInet4Connect | .cgroupInet6Connect
    | .cgroupUnixConnect | .cgroupInet4Getpeername | .cgroupInet6Getpeername
    | .cgroupUnixGetpeername | .cgroupInet4Getsockname | .cgroupInet6Getsockname
    | .cgroupUnixGetsockname | .cgroupUdp4Sendmsg | .cgroupUdp6Sendmsg | .cgroupUnixSendmsg
    | .cgroupUdp4Recvmsg | .cgroupUdp6Recvmsg | .cgroupUnixRecvmsg => 0
    | _ => -einval
  | .cgroupSkb =>
    match expectedAttachType with
    | .cgroupInetIngress | .cgroupInetEgress => 0
    | _ => -einval
  | .cgroupSockopt =>
    match expectedAttachType with
    | .cgroupSetsockopt | .cgroupGetsockopt => 0
    | _ => -einval
  | .skLookup => if expectedAttachType = .skLookup then 0 else -einval
  | .skReuseport =>
    match expectedAttachType with
    | .skReuseportSelect | .skReuseportSelectOrMigrate => 0
    | _ => -einval
  | .netfilter => if expectedAttachType = .netfilter then 0 else -einval
  | .syscall | .ext => if expectedAttachType ≠ .zero then -einval else 0
  | _ => 0

def btfMaxType : BitVec 32 := 0x000fffff

/-- The program that a load names by its BTF. Of the pointers only whether they are null is read. -/
structure Target where
  attachBtf : Bool
  btfId : BitVec 32
  dstProg : Bool
  multiFunc : Bool

def loadCheckAttach (progType : ProgType) (expectedAttachType : AttachType) (target : Target) : ℤ :=
  if target.btfId ≠ 0 ∧ target.btfId > btfMaxType then -einval
  else if target.btfId ≠ 0 ∧ ¬ target.attachBtf ∧ ¬ target.dstProg then -einval
  else if target.btfId ≠ 0 ∧ progType ∉ [.tracing, .lsm, .structOps, .ext] then -einval
  else if target.multiFunc then
    if progType ≠ .tracing then -einval
    else if ¬ target.attachBtf ∨ target.btfId ≠ 0 then -einval
    else 0
  else if target.attachBtf ∧ (target.btfId = 0 ∨ target.dstProg) then -einval
  else if target.dstProg ∧ progType ≠ .tracing ∧ progType ≠ .ext then -einval
  else checkExpected progType expectedAttachType

def attachTypeToProgType : AttachType → ProgType
  | .cgroupInetIngress | .cgroupInetEgress => .cgroupSkb
  | .cgroupInetSockCreate | .cgroupInetSockRelease | .cgroupInet4PostBind
  | .cgroupInet6PostBind => .cgroupSock
  | .cgroupInet4Bind | .cgroupInet6Bind | .cgroupInet4Connect | .cgroupInet6Connect
  | .cgroupUnixConnect | .cgroupInet4Getpeername | .cgroupInet6Getpeername
  | .cgroupUnixGetpeername | .cgroupInet4Getsockname | .cgroupInet6Getsockname
  | .cgroupUnixGetsockname | .cgroupUdp4Sendmsg | .cgroupUdp6Sendmsg | .cgroupUnixSendmsg
  | .cgroupUdp4Recvmsg | .cgroupUdp6Recvmsg | .cgroupUnixRecvmsg => .cgroupSockAddr
  | .cgroupSockOps => .sockOps
  | .cgroupDevice => .cgroupDevice
  | .skMsgVerdict => .skMsg
  | .skSkbStreamParser | .skSkbStreamVerdict | .skSkbVerdict => .skSkb
  | .lircMode2 => .lircMode2
  | .flowDissector => .flowDissector
  | .cgroupSysctl => .cgroupSysctl
  | .cgroupGetsockopt | .cgroupSetsockopt => .cgroupSockopt
  | .traceIter | .traceRawTp | .traceFentry | .traceFexit | .traceFsession
  | .traceFsessionMulti | .traceFentryMulti | .traceFexitMulti | .modifyReturn => .tracing
  | .lsmMac => .lsm
  | .skLookup => .skLookup
  | .xdp => .xdp
  | .lsmCgroup => .lsm
  | .tcxIngress | .tcxEgress | .netkitPrimary | .netkitPeer => .schedCls
  | _ => .unspec

structure BpfProg where
  type : ProgType
  expectedAttachType : AttachType
  enforceExpectedAttachType : Bool
  token : Option BpfToken

def attachCheckAttachType (prog : BpfProg) (attachType : AttachType) : ℤ :=
  match prog.type with
  | .cgroupSock | .cgroupSockAddr | .cgroupSockopt | .skLookup =>
    if attachType = prog.expectedAttachType then 0 else -einval
  | .cgroupSkb =>
    -- These can be loaded by an unprivileged user.
    if ¬ bpfTokenCapable prog.token .netAdmin then -eperm
    else if prog.type ≠ attachTypeToProgType attachType then -einval
    else if prog.enforceExpectedAttachType ∧ prog.expectedAttachType ≠ attachType then -einval
    else 0
  | .ext => 0
  | .netfilter => if attachType ≠ .netfilter then -einval else 0
  | .perfEvent | .tracepoint => if attachType ≠ .perfEvent then -einval else 0
  | .kprobe =>
    if prog.expectedAttachType = .traceKprobeMulti ∧ attachType ≠ .traceKprobeMulti then
      -einval
    else if prog.expectedAttachType = .traceKprobeSession ∧ attachType ≠ .traceKprobeSession then
      -einval
    else if prog.expectedAttachType = .traceUprobeMulti ∧ attachType ≠ .traceUprobeMulti then
      -einval
    else if prog.expectedAttachType = .traceUprobeSession ∧ attachType ≠ .traceUprobeSession then
      -einval
    else if attachType ≠ .perfEvent ∧ attachType ≠ .traceKprobeMulti ∧
        attachType ≠ .traceKprobeSession ∧ attachType ≠ .traceUprobeMulti ∧
        attachType ≠ .traceUprobeSession then -einval
    else 0
  | .schedCls =>
    if attachType ≠ .tcxIngress ∧ attachType ≠ .tcxEgress ∧ attachType ≠ .netkitPrimary ∧
        attachType ≠ .netkitPeer then -einval
    else 0
  | type =>
    let ptype := attachTypeToProgType attachType
    if ptype = .unspec ∨ ptype ≠ type then -einval else 0

/-! ## What a type of program attaches to -/

def probeLinks : List AttachType :=
  [.traceKprobeMulti, .traceKprobeSession, .traceUprobeMulti, .traceUprobeSession]

/-- The attach types that a type of program has. -/
def Takes : ProgType → AttachType → Prop
  | .ext, _ => True
  | .netfilter, a => a = .netfilter
  | .perfEvent, a | .tracepoint, a => a = .perfEvent
  | .kprobe, a => a = .perfEvent ∨ a ∈ probeLinks
  | type, a => type ≠ .unspec ∧ attachTypeToProgType a = type

/-- The program can be attached only as it announced when it was loaded. -/
def Pinned (prog : BpfProg) : Prop :=
  prog.type ∈ [.cgroupSock, .cgroupSockAddr, .cgroupSockopt, .skLookup] ∨
    (prog.type = .cgroupSkb ∧ prog.enforceExpectedAttachType) ∨
    (prog.type = .kprobe ∧ prog.expectedAttachType ∈ probeLinks)

/-- A load of this program, after the fixup, passes its check. -/
def Loads (prog : BpfProg) : Prop :=
  ∃ expected target,
    prog.expectedAttachType = (fixupAttachType ⟨prog.type, expected⟩).expectedAttachType ∧
      loadCheckAttach prog.type prog.expectedAttachType target = 0

lemma checkExpected_of_load {type : ProgType} {expected : AttachType} {target : Target}
    (h : loadCheckAttach type expected target = 0) : checkExpected type expected = 0 := by
  unfold loadCheckAttach at h
  split_ifs at h <;> simp_all [einval, checkExpected]

lemma loadCheckAttach_plain (type : ProgType) (expected : AttachType) :
    loadCheckAttach type expected ⟨false, 0, false, false⟩ = checkExpected type expected := by
  simp [loadCheckAttach]

/-- The switch accepts for the socket programs the attach types that are theirs, and no others. -/
lemma checkExpected_pinned {type : ProgType} {expected : AttachType}
    (h : type ∈ [.cgroupSock, .cgroupSockAddr, .cgroupSockopt, .skLookup, .cgroupSkb]) :
    checkExpected type expected = 0 ↔ attachTypeToProgType expected = type := by
  simp only [List.mem_cons, List.not_mem_nil, or_false] at h
  obtain rfl | rfl | rfl | rfl | rfl := h <;> cases expected <;>
    simp [checkExpected, attachTypeToProgType, einval]

lemma attachTypeToProgType_schedCls (a : AttachType) :
    attachTypeToProgType a = .schedCls ↔
      a = .tcxIngress ∨ a = .tcxEgress ∨ a = .netkitPrimary ∨ a = .netkitPeer := by
  cases a <;> simp [attachTypeToProgType]

/-- For the programs that the last case handles. -/
lemma attach_default {a : AttachType} {type : ProgType} :
    (if attachTypeToProgType a = .unspec ∨ attachTypeToProgType a ≠ type then -einval else 0) = 0 ↔
      type ≠ .unspec ∧ attachTypeToProgType a = type := by
  split_ifs with h <;> grind [einval]

lemma attach_kprobe (prog : BpfProg) (h : prog.type = .kprobe) (a : AttachType) :
    attachCheckAttachType prog a = 0 ↔
      (a = .perfEvent ∨ a ∈ probeLinks) ∧
        (prog.expectedAttachType ∈ probeLinks → a = prog.expectedAttachType) := by
  simp only [attachCheckAttachType, h, probeLinks, List.mem_cons, List.not_mem_nil, or_false]
  split_ifs <;> grind [einval]

/-- An attach is accepted exactly at the attach types of the program, with what it announced where
that binds it, and for `cgroup_skb` with the capability. -/
lemma attach_iff {prog : BpfProg} (h : checkExpected prog.type prog.expectedAttachType = 0)
    (a : AttachType) :
    attachCheckAttachType prog a = 0 ↔
      Takes prog.type a ∧ (Pinned prog → a = prog.expectedAttachType) ∧
        (prog.type = .cgroupSkb → bpfTokenCapable prog.token .netAdmin) := by
  obtain ⟨type, expected, enforce, token⟩ := prog
  dsimp only at h ⊢
  cases type with
  | kprobe => simpa [Takes, Pinned] using attach_kprobe ⟨.kprobe, expected, enforce, token⟩ rfl a
  | cgroupSkb =>
    simp only [attachCheckAttachType, Takes, Pinned]
    split_ifs <;> grind [einval, eperm]
  | schedCls =>
    have hs := attachTypeToProgType_schedCls a
    simp only [attachCheckAttachType, Takes, Pinned]
    split_ifs <;> grind [einval]
  | cgroupSock | cgroupSockAddr | cgroupSockopt | skLookup =>
    have ht := (checkExpected_pinned (by simp)).1 h
    simp only [attachCheckAttachType, Takes, Pinned]
    split_ifs <;> grind [einval]
  | ext => simp [attachCheckAttachType, Takes, Pinned]
  | netfilter | perfEvent | tracepoint =>
    simp only [attachCheckAttachType, Takes, Pinned]
    split_ifs <;> simp_all [einval]
  | _ => exact attach_default.trans (by simp [Takes, Pinned])

/-- What a program must have announced to be attached there. -/
lemma exists_loads {type : ProgType} {a : AttachType} (h : Takes type a) (enforce : Bool)
    (token : Option BpfToken) :
    ∃ expected, Loads ⟨type, expected, enforce, token⟩ ∧
      (Pinned ⟨type, expected, enforce, token⟩ → a = expected) := by
  have hplain {expected : AttachType} (hfix : fixupAttachType ⟨type, expected⟩ = ⟨type, expected⟩)
      (hcheck : checkExpected type expected = 0) : Loads ⟨type, expected, enforce, token⟩ :=
    ⟨expected, ⟨false, 0, false, false⟩, by rw [hfix], by rw [loadCheckAttach_plain, hcheck]⟩
  cases type with
  | cgroupSock | cgroupSockAddr | cgroupSockopt | skLookup | cgroupSkb =>
    have hcheck := (checkExpected_pinned (by simp)).2 h.2
    refine ⟨a, hplain ?_ hcheck, fun _ => rfl⟩
    cases a <;> first | rfl | exact absurd h.2 (by decide)
  | kprobe => exact ⟨a, hplain rfl rfl, fun _ => rfl⟩
  | netfilter => exact ⟨.netfilter, hplain rfl rfl, by simp [Pinned]⟩
  | skReuseport => exact absurd h.2 (by cases a <;> simp [attachTypeToProgType])
  | _ => exact ⟨.zero, hplain rfl rfl, by simp [Pinned]⟩

/-- The fixup undoes no load: it adds to what the check accepts only the loads of the two old types
that announce nothing. -/
theorem fixup_check (attr : BpfAttr) (target : Target) :
    loadCheckAttach attr.progType (fixupAttachType attr).expectedAttachType target = 0 ↔
      loadCheckAttach attr.progType attr.expectedAttachType target = 0 ∨
        (attr.progType ∈ [.cgroupSock, .skReuseport] ∧ attr.expectedAttachType = .zero ∧
          ∃ expected, loadCheckAttach attr.progType expected target = 0) := by
  obtain ⟨type, expected⟩ := attr
  by_cases hzero : expected = .zero
  · subst hzero
    cases type with
    | cgroupSock | skReuseport =>
      constructor
      · exact fun h => .inr ⟨by simp, rfl, _, h⟩
      · rintro (h | ⟨-, -, other, h⟩)
        · exact absurd (checkExpected_of_load h) (by decide)
        · have hother := checkExpected_of_load h
          simp only [loadCheckAttach] at h ⊢
          split_ifs at h ⊢ <;> simp_all [einval, fixupAttachType, checkExpected]
    | _ => simp [fixupAttachType]
  · cases type <;> simp [fixupAttachType, hzero]

/-- Once a load has passed, the attach check accepts exactly the attach types of the program, the
one that was announced where the announcement binds, and a `cgroup_skb` program only with the
capability. Nothing that a type of program takes is out of reach of a load. -/
theorem attach_exact :
    (∀ prog, Loads prog → ∀ a, attachCheckAttachType prog a = 0 ↔
      Takes prog.type a ∧ (Pinned prog → a = prog.expectedAttachType) ∧
        (prog.type = .cgroupSkb → bpfTokenCapable prog.token .netAdmin)) ∧
    ∀ type a enforce token,
      (∃ expected, Loads ⟨type, expected, enforce, token⟩ ∧
        attachCheckAttachType ⟨type, expected, enforce, token⟩ a = 0) ↔
      Takes type a ∧ (type = .cgroupSkb → bpfTokenCapable token .netAdmin) := by
  have hexact : ∀ prog, Loads prog → ∀ a, attachCheckAttachType prog a = 0 ↔
      Takes prog.type a ∧ (Pinned prog → a = prog.expectedAttachType) ∧
        (prog.type = .cgroupSkb → bpfTokenCapable prog.token .netAdmin) := by
    rintro prog ⟨expected, target, -, hload⟩ a
    exact attach_iff (checkExpected_of_load hload) a
  refine ⟨hexact, ?_⟩
  intro type a enforce token
  constructor
  · rintro ⟨expected, hload, hattach⟩
    obtain ⟨htakes, -, hcap⟩ := (hexact _ hload a).1 hattach
    exact ⟨htakes, hcap⟩
  · rintro ⟨htakes, hcap⟩
    obtain ⟨expected, hload, hpinned⟩ := exists_loads htakes enforce token
    exact ⟨expected, hload, (hexact _ hload a).2 ⟨htakes, hpinned, hcap⟩⟩

end BpfVerify.ProgAttach
