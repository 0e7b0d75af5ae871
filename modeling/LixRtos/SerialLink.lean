import LixRtos.SerialRuns
import LixRtos.Reports

/-! Two serial lines that are connected: one process sends with `serial_send`, another one receives
with `serial_recv`. -/
namespace LixRtos

/-- What a call of `serial_send` or `serial_recv` returned, and the bytes of its buffer up to
there. -/
structure SerialReport where
  ret : ℤ
  bytes : Bytes

abbrev LinkCall := SerialCall ⊕ SerialReport

abbrev LinkCall.Answer : LinkCall → Type := Sum.elim SerialCall.Answer fun _ => Unit

abbrev LinkProgram := Program LinkCall LinkCall.Answer

abbrev LinkEvent := Program.Event Bool LinkCall LinkCall.Answer

def report (ret : ℤ) (data : Buffer) : LinkProgram Unit :=
  .call (.inr ⟨ret,data.front ret.toNat⟩) .ret

/-- Sends the buffers of `outbox`, each with a length, for ever. -/
def sender (tx : SerialClass) (outbox : ℕ → Buffer × ℤ) : LinkProgram Unit :=
  Program.iterate (fun n => do
    let ret ← (SerialClass.serialSend (some tx) (some (outbox n).1) (outbox n).2).extend
    report ret (outbox n).1
    pure (.inl (n+1))) 0

/-- Receives into one buffer, for ever, at most `lens n` bytes in turn `n`. -/
def receiver (rx : SerialClass) (lens : ℕ → ℤ) (data : Buffer) : LinkProgram Unit :=
  Program.iterate (fun s : ℕ × Buffer => do
    let r ← (SerialClass.serialRecv (some rx) (some s.2) (lens s.1)).extend
    report r.1 (r.2.getD s.2)
    pure (.inl (s.1+1,r.2.getD s.2))) (0,data)

def maxRwCount : ℕ := 0x7ffff000

/-- `write` accepts the first `n` bytes, or fails with -1. -/
def accept (wire : Bytes) (data : Buffer) (size : ℕ) (n : ℤ) : Option Bytes :=
  if -1 ≤ n ∧ n ≤ size ∧ n ≤ maxRwCount then some (wire ++ data.front n.toNat) else none

/-- The world is the bytes on their way. `epoll_wait` may time out or fail at any time; a descriptor
other than that of the line gives any bytes. -/
def serveLink (rx : SerialClass) : Program.Kernel Bool Bytes LinkCall LinkCall.Answer
  | wire, false, .inl (.write _ data size), n => accept wire data size n
  | wire, true, .inl (.epollWait epfd _), .ready fd =>
    if epfd = rx.epfd ∧ fd = rx.fd then some wire else none
  | wire, true, .inl (.epollWait _ _), _ => some wire
  | wire, true, .inl (.read fd _ size), some bytes =>
    if bytes.length ≤ size then
      if fd = rx.fd then if bytes <+: wire then some (wire.drop bytes.length) else none
      else some wire
    else none
  | wire, true, .inl (.read _ _ _), none => some wire
  | wire, _, .inr _, _ => some wire
  | _, _, _, _ => none

def linkParties (tx rx : SerialClass) (outbox : ℕ → Buffer × ℤ) (lens : ℕ → ℤ) (data : Buffer) :
    Program.Config Bool Bytes LinkCall LinkCall.Answer where
  world := []
  procs := fun
    | false => sender tx outbox
    | true => receiver rx lens data

def written (log : List LineExchange) : Bytes :=
  log.flatMap fun
    | ⟨.write _ data _,n⟩ => data.front (show ℤ from n).toNat
    | _ => []

/-- What the calls of `read` have taken from descriptor `fd`. -/
def taken (fd : ℤ) (log : List LineExchange) : Bytes :=
  ((chunks log).filter fun c => c.fd = fd).flatMap Chunk.bytes

@[simp] theorem written_append (log log' : List LineExchange) :
    written (log ++ log') = written log ++ written log' :=
  List.flatMap_append

@[simp] theorem taken_append (fd : ℤ) (log log' : List LineExchange) :
    taken fd (log ++ log') = taken fd log ++ taken fd log' := by
  rw [taken,chunks_append,List.filter_append,List.flatMap_append,taken,taken]

theorem written_flatMap {α : Type} (ds : List α) (f : α → List LineExchange) :
    written (ds.flatMap f) = ds.flatMap fun d => written (f d) := by
  rw [written,List.flatMap_assoc]
  rfl

theorem taken_flatMap {α : Type} (fd : ℤ) (ds : List α) (f : α → List LineExchange) :
    taken fd (ds.flatMap f) = ds.flatMap fun d => taken fd (f d) := by
  induction ds with
  | nil => rfl
  | cons d ds ih => simp only [List.flatMap_cons,taken_append,ih]

def writing : Program.Protocol SerialCall SerialCall.Answer Interest where
  allows _ _ := True
  answers _ c r :=
    match c, r with
    | .write _ _ _, n => -1 ≤ n ∧ n ≤ maxRwCount
    | _, _ => True
  next s _ _ := s

/-- The report of a call of `serial_send` gives what `write` has accepted. -/
def SendOk (log : List LineExchange) (d : SerialReport) : Prop := d.bytes = written log

def isFault : LineExchange → Bool
  | ⟨.read _ _ _,none⟩ => true
  | ⟨.epollWait _ _,.error⟩ => true
  | _ => false

/-- The report of a call of `serial_recv` gives what `read` has taken from the line, unless the
first two calls of `epoll_wait` have failed. A call that fails has taken nothing, or a call that it
made has failed. -/
structure RecvOk (fd : ℤ) (log : List LineExchange) (d : SerialReport) : Prop where
  returns : 0 ≤ d.ret → ¬ Blind log → d.bytes = taken fd log ∧ d.ret = d.bytes.length
  fails : d.ret < 0 → d.bytes = [] ∧ (taken fd log = [] ∨ ∃ e ∈ log, isFault e)

variable {tx rx : SerialClass} {outbox : ℕ → Buffer × ℤ} {lens : ℕ → ℤ} {data : Buffer}

theorem serialSend_follows (s : Interest) (buf : Buffer) (len : ℤ) :
    (SerialClass.serialSend (some tx) (some buf) len).Follows writing.logged (s,[]) fun a ret =>
      buf.front ret.toNat = written a.2 := by
  refine Program.Follows.bind (Program.Follows.perform trivial ?_)
  rintro (res : ℤ) ⟨(hlo : -1 ≤ res),(hhi : res ≤ maxRwCount)⟩
  have hres : toInt res = res := by
    rw [maxRwCount] at hhi
    exact toInt_eq (by omega) (by omega)
  have hwritten : written [⟨.write tx.fd buf (len % 2^64).toNat,res⟩] = buf.front res.toNat := by
    simp [written]
  simp only [hres]
  split
  · next hneg =>
    have hzero : res.toNat = 0 := by omega
    exact (hwritten.trans (by rw [hzero]; rfl)).symm
  · exact hwritten.symm

theorem sender_follows (s : Interest) : (sender tx outbox).Follows (writing.reported s SendOk) (s,[])
    fun _ _ => True := by
  apply Program.Follows.iterate (fun a _ => a = (s,[])) rfl
  rintro _ n rfl
  refine Program.Follows.bind ((serialSend_follows s (outbox n).1 (outbox n).2).reported.mono ?_)
  intro a ret hret
  exact ⟨hret,fun _ _ => rfl⟩

theorem taken_eq_of_seeing {fd : ℤ} {log : List LineExchange} (h : ∀ c ∈ chunks log, c.fd = fd) :
    taken fd log = ((chunks log).map Chunk.bytes).flatten := by
  have hall : ((chunks log).filter fun c => c.fd = fd) = chunks log :=
    List.filter_eq_self.mpr fun c hc => by simpa using h c hc
  rw [taken,hall,List.flatMap]

/-- Only a call of `read` that fails ends the loop with a failure. -/
theorem recvChunk_fails {s : Interest × List LineExchange} {len ev n : ℤ} (hlen : len < 2^31)
    (hn : 0 ≤ n ∧ n ≤ len) : (SerialClass.recvChunk len ev n data).Follows device.logged s fun a r =>
      match r with
      | .inl (_,n,_) => 0 ≤ n ∧ n ≤ len
      | .inr (r,_) => r < 0 → ∃ e ∈ a.2, isFault e := by
  refine Program.Follows.bind (Program.Follows.perform trivial fun got hgot => ?_)
  cases got with
  | none => exact fun _ => ⟨_,List.mem_append_right _ (List.mem_singleton_self _),rfl⟩
  | some bytes =>
    have hroom : bytes.length ≤ len - n := by
      have hle : bytes.length ≤ ((len - n) % 2^64).toNat := hgot bytes rfl
      omega
    have hres : toInt bytes.length = bytes.length := toInt_eq (by omega) (by omega)
    have hsum : toInt (n + bytes.length) = n + bytes.length := toInt_eq (by omega) (by omega)
    have hnonneg : ¬ (bytes.length : ℤ) < 0 := by omega
    simp only [Option.elim_some,hres,hsum,if_neg hnonneg]
    split
    · exact fun hneg => absurd hneg (by omega)
    · exact ⟨by omega,by omega⟩

theorem serialRecv_fails {s : Interest} {len : ℤ} (hlen : 0 ≤ len ∧ len < 2^31) :
    (SerialClass.serialRecv (some rx) (some data) len).Follows device.logged (s,[]) fun a r =>
      r.1 < 0 → chunks a.2 = [] ∨ ∃ e ∈ a.2, isFault e := by
  have hloop (a : Interest × List LineExchange) (ev : ℤ) :
      (rx.recvLoop len ev data).Follows device.logged a fun a r => r.1 < 0 → ∃ e ∈ a.2, isFault e := by
    apply Program.Follows.iterate (fun _ st => 0 ≤ st.2.1 ∧ st.2.1 ≤ len) ⟨le_rfl,hlen.1⟩
    rintro a ⟨ev,n,data⟩ hn
    apply Program.Follows.bind
    refine Program.Follows.bind (Program.Follows.perform trivial fun w _ => ?_)
    have hchunk (b : Interest × List LineExchange) (ev : ℤ) :
        (SerialClass.recvChunk len ev n data).Follows device.logged b fun a r =>
          match r with
          | .inl (_,n,_) => 0 ≤ n ∧ n ≤ len
          | .inr (r,_) => r < 0 → ∃ e ∈ a.2, isFault e :=
      recvChunk_fails hlen.2 hn
    cases w with
    | timeout => exact fun hneg => absurd hneg (not_lt.mpr hn.1)
    | ready fd => exact (hchunk _ _).mono fun a r h => by rcases r with _ | _ <;> exact h
    | error => exact (hchunk _ _).mono fun a r h => by rcases r with _ | _ <;> exact h
  apply Program.Follows.bind
  refine Program.Follows.bind (Program.Follows.perform trivial fun w _ => ?_)
  cases w with
  | timeout => exact fun _ => Or.inl rfl
  | ready fd => exact Program.Follows.bind ((hloop _ fd).mono fun a r h hneg => Or.inr (h hneg))
  | error => exact Program.Follows.bind ((hloop _ 0).mono fun a r h hneg => Or.inr (h hneg))

theorem receiver_follows (hlens : ∀ n, 0 ≤ lens n ∧ lens n < 2^31) :
    (receiver rx lens data).Follows (device.reported [(rx.epfd,rx.fd)] (RecvOk rx.fd))
    ([(rx.epfd,rx.fd)],[])
      fun _ _ => True := by
  have hat : rx.Attached [(rx.epfd,rx.fd)] := fun fd h => by simpa using h
  apply Program.Follows.iterate (fun a _ => a = ([(rx.epfd,rx.fd)],[])) rfl
  rintro _ ⟨n,data⟩ rfl
  refine Program.Follows.bind
    ((((serialRecv_follows (hlens n) hat).and (serialRecv_fails (hlens n))).reported).mono ?_)
  rintro a ⟨ret,_⟩ ⟨⟨data',rfl,hreceived⟩,hfails⟩
  refine ⟨⟨fun hret hblind => ?_,fun hneg => ?_⟩,fun _ _ => rfl⟩
  · obtain ⟨-,hfilled,horigin⟩ := hreceived hret
    refine ⟨?_,?_⟩
    · rw [taken_eq_of_seeing (horigin.seeing hblind)]
      exact hfilled.content
    · change ret = ((data'.front ret.toNat).length : ℤ)
      have hlen : (data'.front ret.toNat).length = ret.toNat := by simp [Buffer.front]
      rw [hlen,Int.toNat_of_nonneg hret]
  · have hzero : ret.toNat = 0 := Int.toNat_of_nonpos (le_of_lt hneg)
    refine ⟨by rw [hzero]; rfl,(hfails hneg).imp_left fun hnone => ?_⟩
    rw [taken,hnone]
    rfl

variable {tr : List LinkEvent} {c : Program.Config Bool Bytes LinkCall LinkCall.Answer}

def linkProtocol : Bool → Program.Protocol SerialCall SerialCall.Answer Interest
  | false => writing
  | true => device

def LinkOk (rx : SerialClass) : Bool → List LineExchange → SerialReport → Prop
  | false => SendOk
  | true => RecvOk rx.fd

theorem serveLink_still {wire wire' : Bytes} {i : Bool} {c : SerialCall} {r : c.Answer}
    (h : serveLink rx wire i (.inl c) r = some wire') :
    (linkProtocol i).answers [(rx.epfd,rx.fd)] c r ∧
      (linkProtocol i).next [(rx.epfd,rx.fd)] c r = [(rx.epfd,rx.fd)] := by
  cases i with
  | false =>
    cases c with
    | write fd data size =>
      simp only [serveLink,accept] at h
      split at h
      · next hn => exact ⟨⟨hn.1,hn.2.2⟩,rfl⟩
      · exact absurd h (by simp)
    | _ => exact absurd h (by simp [serveLink])
  | true =>
    cases c with
    | epollWait epfd timeout =>
      refine ⟨fun fd hr => ?_,rfl⟩
      subst hr
      simp only [serveLink] at h
      split at h
      · next hfd => simp [hfd]
      · exact absurd h (by simp)
    | read fd off size =>
      refine ⟨fun bytes hr => ?_,rfl⟩
      subst hr
      simp only [serveLink] at h
      split at h
      · assumption
      · exact absurd h (by simp)
    | _ => exact absurd h (by simp [serveLink])

theorem link_reports
    (hrun : Program.Run (serveLink rx) Program.anyCall (linkParties tx rx outbox lens data) tr c)
    (hlens : ∀ n, 0 ≤ lens n ∧ lens n < 2^31) (i : Bool) :
    ∀ d ∈ (Program.ledger tr i).done, LinkOk rx i d.log d.report := by
  have hfollows (i : Bool) : ((linkParties tx rx outbox lens data).procs i).Follows
      ((linkProtocol i).reported [(rx.epfd,rx.fd)] (LinkOk rx i)) ([(rx.epfd,rx.fd)],[]) fun _ _ =>
        True := by
    cases i with
    | false => exact sender_follows _
    | true => exact receiver_follows hlens
  exact hrun.reports hfollows (fun _ _ _ _ _ => serveLink_still) i

theorem serveLink_sends {wire wire' : Bytes} {c : SerialCall} {r : c.Answer}
    (h : serveLink rx wire false (.inl c) r = some wire') : wire' = wire ++ written [⟨c,r⟩] := by
  cases c with
  | write fd data size =>
    simp only [serveLink,accept] at h
    split at h
    · rw [← Option.some.inj h]
      simp [written]
    · exact absurd h (by simp)
  | _ => exact absurd h (by simp [serveLink])

theorem serveLink_receives {wire wire' : Bytes} {c : SerialCall} {r : c.Answer}
    (h : serveLink rx wire true (.inl c) r = some wire') : wire = taken rx.fd [⟨c,r⟩] ++ wire' := by
  cases c with
  | epollWait epfd timeout =>
    cases r with
    | ready fd =>
      simp only [serveLink] at h
      split at h
      · exact Option.some.inj h
      · exact absurd h (by simp)
    | _ => exact Option.some.inj h
  | read fd off size =>
    cases r with
    | none => exact Option.some.inj h
    | some bytes =>
      have htaken : taken rx.fd [⟨.read fd off size,some bytes⟩] = if fd = rx.fd then bytes else
          [] := by
        by_cases hfd : fd = rx.fd <;> simp [taken,chunks,chunkOf,hfd]
      rw [htaken]
      simp only [serveLink] at h
      split at h
      · split at h
        · next hfd =>
          split at h
          · next hprefix =>
            obtain ⟨rest,rfl⟩ := hprefix
            rw [if_pos hfd,← Option.some.inj h,List.drop_left]
          · exact absurd h (by simp)
        · next hfd =>
          rw [if_neg hfd]
          exact Option.some.inj h
      · exact absurd h (by simp)
  | _ => exact absurd h (by simp [serveLink])

/-- What is written has been read or is on its way, in this order. -/
theorem link_conserves {start : Program.Config Bool Bytes LinkCall LinkCall.Answer}
    {cond : Bytes → List LinkEvent → LinkEvent → Prop}
    (hrun : Program.Run (serveLink rx) cond start tr c) (hstart : start.world = []) :
    written (Program.ledger tr false).calls = taken rx.fd (Program.ledger tr true).calls ++
      c.world := by
  induction hrun with
  | refl =>
    rw [hstart]
    rfl
  | loop _ _ _ ih => exact ih
  | @call tr wire wire' procs i c next r _ _ hserve _ ih =>
    rcases c with c | d
    · cases i with
      | false =>
        have hsend : wire' = wire ++ written [⟨c,r⟩] := serveLink_sends hserve
        have hcalls : (Program.ledger (tr ++ [⟨false,.inl c,r⟩]) false).calls =
          (Program.ledger tr false).calls ++ [⟨c,r⟩] := Program.calls_call tr false c r
        rw [hcalls,Program.ledger_of_ne (by simp),written_append,ih,hsend,List.append_assoc]
      | true =>
        have hreceive : wire = taken rx.fd [⟨c,r⟩] ++ wire' := serveLink_receives hserve
        have hcalls : (Program.ledger (tr ++ [⟨true,.inl c,r⟩]) true).calls =
          (Program.ledger tr true).calls ++ [⟨c,r⟩] := Program.calls_call tr true c r
        rw [hcalls,Program.ledger_of_ne (by simp),taken_append,ih,List.append_assoc]
        exact congrArg _ hreceive
    · obtain rfl : wire = wire' := Option.some.inj (by cases i <;> exact hserve)
      have hcalls : (Program.ledger (tr ++ [⟨i,.inr d,r⟩]) i).calls = (Program.ledger tr i).calls :=
        Program.calls_report tr i d r
      cases i with
      | false =>
        rw [hcalls,Program.ledger_of_ne (by simp)]
        exact ih
      | true =>
        rw [hcalls,Program.ledger_of_ne (by simp)]
        exact ih

/-- What the calls of `serial_send` have reported as sent. -/
def sent (tr : List LinkEvent) : Bytes :=
  (Program.ledger tr false).done.flatMap fun d => d.report.bytes

def received (tr : List LinkEvent) : Bytes :=
  (Program.ledger tr true).done.flatMap fun d => d.report.bytes

theorem sent_eq
    (hrun : Program.Run (serveLink rx) Program.anyCall (linkParties tx rx outbox lens data) tr c)
    (hlens : ∀ n, 0 ≤ lens n ∧ lens n < 2^31) :
    written (Program.ledger tr false).calls = sent tr ++
      written (Program.ledger tr false).pending := by
  rw [Program.Ledger.calls,written_append,written_flatMap,sent]
  congr 1
  exact List.flatMap_congr fun d hd => (link_reports hrun hlens false d hd).symm

theorem link_stream
    (hrun : Program.Run (serveLink rx) Program.anyCall (linkParties tx rx outbox lens data) tr c)
    (hlens : ∀ n, 0 ≤ lens n ∧ lens n < 2^31) :
    sent tr ++ written (Program.ledger tr false).pending =
      ((Program.ledger tr true).done.flatMap fun d => taken rx.fd d.log) ++
        (taken rx.fd (Program.ledger tr true).pending ++ c.world) := by
  rw [← sent_eq hrun hlens,link_conserves hrun rfl,Program.Ledger.calls,taken_append,taken_flatMap,
    List.append_assoc]

/-- In whatever order the processes run, and however the line splits and delays: what the calls of
`serial_send` report as sent is, byte for byte and in order, what the calls of `serial_recv` took
from the line, then what the call under way has taken, then what is on its way; and each call of
`serial_recv` reports what it took. -/
theorem run_link
    (hrun : Program.Run (serveLink rx) Program.anyCall (linkParties tx rx outbox lens data) tr c)
    (hlens : ∀ n, 0 ≤ lens n ∧ lens n < 2^31) :
    sent tr ++ written (Program.ledger tr false).pending =
        ((Program.ledger tr true).done.flatMap fun d => taken rx.fd d.log) ++
          (taken rx.fd (Program.ledger tr true).pending ++ c.world) ∧
      ∀ d ∈ (Program.ledger tr true).done, RecvOk rx.fd d.log d.report :=
  ⟨link_stream hrun hlens,link_reports hrun hlens true⟩

def twoBytes : Buffer := Buffer.store (fun _ => 0) 0 [65,66]

def sampleLink : Program.Config Bool Bytes LinkCall LinkCall.Answer :=
  linkParties sampleLine sampleLine (fun _ => (twoBytes,2)) (fun _ => 1) fun _ => 0

def sampleExchange : List LinkEvent :=
  [⟨false,.inl (.write 3 twoBytes 2),(2 : ℤ)⟩,⟨false,.inr ⟨2,[65,66]⟩,()⟩,
    ⟨true,.inl (.epollWait 4 1000),.ready 3⟩,⟨true,.inl (.epollWait 4 2),.ready 3⟩,
    ⟨true,.inl (.read 3 0 1),some [65]⟩,⟨true,.inr ⟨1,[65]⟩,()⟩]

theorem sampleExchange_run : ∃ c, c.world = [66] ∧
    Program.Run (serveLink sampleLine) Program.anyCall sampleLink sampleExchange c := by
  have hstart : Program.Run (serveLink sampleLine) Program.anyCall sampleLink [] sampleLink := .refl
  have hloop := hstart.loop false rfl
  have hwrite := hloop.call false (2 : ℤ) (c := .inl (.write 3 twoBytes 2)) rfl rfl trivial
  have hsent := hwrite.call false () (c := .inr ⟨2,[65,66]⟩) rfl rfl trivial
  have hrecv := hsent.loop true rfl
  have hfirst := hrecv.call true (EpollWait.ready 3) rfl rfl trivial
  have hturn := hfirst.loop true rfl
  have hwait := hturn.call true (EpollWait.ready 3) rfl rfl trivial
  have hread := hwait.call true (some [65]) (c := .inl (.read 3 0 1)) rfl rfl trivial
  have hreported := hread.call true () (c := .inr ⟨1,[65]⟩) rfl rfl trivial
  exact ⟨_,rfl,hreported⟩

theorem run_link_sample : received sampleExchange = [65] ∧
    ∃ c : Program.Config Bool Bytes LinkCall LinkCall.Answer, c.world = [66] ∧
      sent sampleExchange ++ written (Program.ledger sampleExchange false).pending =
        ((Program.ledger sampleExchange true).done.flatMap fun d => taken 3 d.log) ++
          (taken 3 (Program.ledger sampleExchange true).pending ++ c.world) ∧
      ∀ d ∈ (Program.ledger sampleExchange true).done, RecvOk 3 d.log d.report := by
  obtain ⟨c,hworld,hrun⟩ := sampleExchange_run
  exact ⟨rfl,c,hworld,run_link hrun fun _ => by decide⟩

theorem not_blind {log : List LineExchange} (h : ∀ e ∈ log, isFault e = false) : ¬ Blind log := by
  intro hblind
  have hmem : EpollWait.error ∈ waits log := List.mem_of_mem_take (by rw [hblind]; simp)
  obtain ⟨⟨c,r⟩,he,hwait⟩ := List.mem_filterMap.mp hmem
  have hfault := h _ he
  cases c with
  | epollWait epfd timeout =>
    obtain rfl : r = EpollWait.error := Option.some.inj hwait
    exact absurd hfault (by simp [isFault])
  | _ => exact absurd hwait (by simp [waitOf])

/-- As long as no call of `read` or `epoll_wait` fails, nothing is lost, doubled or out of order,
however often `serial_recv` runs into its timeouts. -/
theorem run_lossless
    (hrun : Program.Run (serveLink rx) Program.anyCall (linkParties tx rx outbox lens data) tr c)
    (hlens : ∀ n, 0 ≤ lens n ∧ lens n < 2^31)
    (hcalm : ∀ e ∈ (Program.ledger tr true).calls, isFault e = false) :
    sent tr ++ written (Program.ledger tr false).pending =
      received tr ++ (taken rx.fd (Program.ledger tr true).pending ++ c.world) := by
  rw [link_stream hrun hlens,received]
  congr 1
  refine List.flatMap_congr fun d hd => ?_
  have hlog : ∀ e ∈ d.log, isFault e = false := fun e he => hcalm e (Program.Ledger.log_subset hd he)
  have hok : RecvOk rx.fd d.log d.report := link_reports hrun hlens true d hd
  rcases lt_or_ge d.report.ret 0 with hneg | hret
  · obtain ⟨hbytes,hnone | ⟨e,he,hfault⟩⟩ := hok.fails hneg
    · rw [hbytes,hnone]
    · exact absurd hfault (by simp [hlog e he])
  · exact (hok.returns hret (not_blind hlog)).1.symm

theorem run_lossless_sample : sent sampleExchange = [65,66] ∧
    ∃ c : Program.Config Bool Bytes LinkCall LinkCall.Answer, c.world = [66] ∧
      sent sampleExchange ++ written (Program.ledger sampleExchange false).pending =
        received sampleExchange ++
          (taken 3 (Program.ledger sampleExchange true).pending ++ c.world) := by
  obtain ⟨c,hworld,hrun⟩ := sampleExchange_run
  exact ⟨rfl,c,hworld,run_lossless hrun (fun _ => by decide) (by decide)⟩

end LixRtos
