import LixRtos.MsgQCalls

/-! What the functions that poll a queue report. They test their timer before the error of `msgrcv`,
and without a timeout the timer is 0. -/
namespace LixRtos
namespace MsgQ

/-- The functions that poll a queue. `monitorevent` counts its timeouts from call to call. -/
inductive Poller
  | clientRecv (client : MsgQClt) (data : Option Bytes) (len : ℤ)
  | monitorevent (client : MsgQClt) (toutCnt : ℕ)
  | serverRecv (srv : MsgQSrv) (data : Option Bytes) (len : ℤ)
  | monitorrequest (srv : MsgQSrv)

def Poller.program : Poller → ℤ → Sys ℤ
  | .clientRecv client data len, tout => do
    let r ← client.recv data len tout
    pure r.1
  | .monitorevent client toutCnt, tout => do
    let r ← client.monitorevent toutCnt tout
    pure r.1
  | .serverRecv srv data len, tout => do
    let r ← srv.recv data len tout
    pure r.1
  | .monitorrequest srv, tout => do
    let r ← srv.monitorrequest tout
    pure r.1

/-- `monitorevent` reports its twelfth timeout in a row as an error. -/
def Poller.Tired : Poller → Prop
  | .monitorevent _ toutCnt => 10 < toutCnt
  | _ => False

/-- What matters of a run: the failures of `msgrcv` and the readings of the clock. -/
inductive Seen
  | failed (e : Errno)
  | read (clock : Option Timer)

def see : Program.Exchange SysCall SysCall.Answer → Option Seen
  | ⟨.msgrcv _ _ _ _,.error e⟩ => some (.failed e)
  | ⟨.clockGettime,clock⟩ => some (.read clock)
  | _ => none

def readings : List Seen → List (Option Timer)
  | [] => []
  | .failed _ :: l => readings l
  | .read clock :: l => clock :: readings l

/-- The failures of `msgrcv`, each with the reading of the clock that follows it. -/
def polls : List Seen → List (Errno × Option Timer)
  | .failed e :: .read clock :: l => (e,clock) :: polls l
  | _ :: l => polls l
  | [] => []

def Monotonic (seen : List Seen) : Prop := ∃ clocks : List Timer.Reading,
  readings seen = clocks.map (fun clock => some clock.toTimer) ∧
    clocks.Pairwise fun c c' => c.toNs ≤ c'.toNs

def nsOf (clock : Option Timer) : ℤ := (clock.getD ⟨0,0⟩).toNs

/-- The nanoseconds from the first reading, which starts the timer, to this one. -/
def elapsed (seen : List Seen) (clock : Option Timer) : ℤ :=
  nsOf clock - nsOf (readings seen).head?.join

def timerOf (tout : ℤ) (clock : Option Timer) : Timer :=
  if tout = 0 then ⟨0,0⟩ else (Timer.tmSetMs clock (some ⟨0,0⟩) (tout % 2^32).toNat).2.getD ⟨0,0⟩

/-- A timeout is reported only when `tout` milliseconds have passed, up to the rounding, and a queue
that was removed is reported as an error. -/
def Truthful (tout : ℤ) (seen : List Seen) (ret : ℤ) : Prop :=
  (ret = 1 → tout ≠ 0 ∧ (tout-1) * 1000000 < elapsed seen (readings seen).getLast?.join) ∧
    (.failed .EIDRM ∈ seen → ret = -1)

/-- When a poll finds the timer expired, it runs, the queue exists, and less than a day remains. -/
def Timely (tout : ℤ) (seen : List Seen) : Prop :=
  ∀ p ∈ polls seen, Timer.tmIsTimeout p.2 (timerOf tout (readings seen).head?.join) ≠ 0 →
    tout ≠ 0 ∧ p.1 ≠ .EIDRM ∧ (tout * 1000000 - elapsed seen p.2) / 1000000 < Timer.maxInterval

variable {tout ret : ℤ} {seen : List Seen} {timer : Timer} {clock : Option Timer} {e : Errno}

def idleTurns (clocks : List (Option Timer)) : List Seen := clocks.flatMap fun clock =>
    [.failed .ENOMSG,.read clock]

theorem idleTurns_snoc (clocks : List (Option Timer)) (clock : Option Timer) :
    idleTurns (clocks ++ [clock]) = idleTurns clocks ++ [.failed .ENOMSG,.read clock] := by
  simp [idleTurns]

theorem loop_seen {qid : ℤ} {msgid : Sys ℤ} {nowait delay : Bool}
    (hmsgid : ∀ seen, msgid.Follows (.observe see) seen fun seen' _ => seen' = seen) :
    (receiveLoop qid msgid nowait timer delay).Follows (.observe see) seen fun seen' r =>
      ∃ clocks, (∀ clock ∈ clocks, Timer.tmIsTimeout clock timer = 0) ∧
        match r with
        | .got _ => seen' = seen ++ idleTurns clocks
        | .timeout => ∃ e clock, seen' = seen ++ idleTurns clocks ++ [.failed e,.read clock] ∧
            Timer.tmIsTimeout clock timer ≠ 0
        | .failed e => ∃ clock, seen' = seen ++ idleTurns clocks ++ [.failed e,.read clock] ∧
            Timer.tmIsTimeout clock timer = 0 := by
  refine Program.Follows.iterate (fun seen' _ => ∃ clocks,
    (∀ clock ∈ clocks, Timer.tmIsTimeout clock timer = 0) ∧ seen' = seen ++ idleTurns clocks)
    ⟨[],by simp,by simp [idleTurns]⟩ ?_
  rintro _ _ ⟨clocks,hclocks,rfl⟩
  refine Program.Follows.bind ((hmsgid _).mono ?_)
  rintro _ t rfl
  refine Program.Follows.bind (Program.Follows.perform trivial ?_)
  rintro (e | pkg) _
  · refine Program.Follows.bind
      (Program.Follows.bind (Program.Follows.perform trivial fun clock _ => ?_))
    have hseen : (seen ++ idleTurns clocks ++ [.failed e]) ++ [.read clock] =
        seen ++ idleTurns clocks ++ [.failed e,.read clock] := by simp
    change Program.Follows _ (if Timer.tmIsTimeout clock timer ≠ 0 then _ else _)
      ((seen ++ idleTurns clocks ++ [.failed e]) ++ [.read clock]) _
    rw [hseen]
    split
    · next hexpired => exact ⟨clocks,hclocks,e,clock,rfl,hexpired⟩
    · next hrunning =>
      rw [not_not] at hrunning
      split
      · exact ⟨clocks,hclocks,clock,rfl,hrunning⟩
      · next he =>
        obtain rfl := not_not.mp he
        have hagain : ∃ clocks', (∀ clock ∈ clocks', Timer.tmIsTimeout clock timer = 0) ∧
            seen ++ idleTurns clocks ++ [.failed .ENOMSG,.read clock] = seen ++ idleTurns clocks' := by
          refine ⟨clocks ++ [clock],fun c hc => ?_,by rw [idleTurns_snoc,List.append_assoc]⟩
          rcases List.mem_append.mp hc with hc | hc
          · exact hclocks c hc
          · rwa [List.mem_singleton.mp hc]
        split
        · refine Program.Follows.bind (Program.Follows.perform trivial fun _ _ => ?_)
          change ∃ clocks', _ ∧ (_ ++ []) = _
          rwa [List.append_nil]
        · exact hagain
  · exact ⟨clocks,hclocks,List.append_nil _⟩

/-- What a poller has seen and returns: it has not found its timer expired, or it has at the last
poll. -/
inductive Outcome (tired : Prop) (tout : ℤ) : List Seen → ℤ → Prop
  | quiet {seen : List Seen} {ret : ℤ}
      (hpolls : ∀ p ∈ polls seen, Timer.tmIsTimeout p.2 (timerOf tout (readings seen).head?.join) = 0)
      (hremoved : .failed .EIDRM ∈ seen → ret = -1) (hret : ret ≠ 1) : Outcome tired tout seen ret
  | expired {seen : List Seen} {ps : List (Errno × Option Timer)} {e : Errno} {clock : Option Timer}
      (hpolls : polls seen = ps ++ [(e,clock)])
      (hclocks : ∀ p ∈ ps, Timer.tmIsTimeout p.2 (timerOf tout (readings seen).head?.join) = 0)
      (hexpired : Timer.tmIsTimeout clock (timerOf tout (readings seen).head?.join) ≠ 0)
      (hremoved : .failed .EIDRM ∈ seen ↔ e = .EIDRM) (hlast : (readings seen).getLast? = some clock)
      (hret : ¬ tired) : Outcome tired tout seen 1
  | tired {seen : List Seen} (hret : tired) : Outcome tired tout seen (-1)

/-- The timer is set at the first reading, if there is a timeout. -/
def Starts (tout : ℤ) (start : List Seen) (timer : Timer) : Prop :=
  tout = 0 ∧ start = [] ∧ timer = ⟨0,0⟩ ∨ ∃ clock, start = [.read clock] ∧ timer = timerOf tout clock

variable {start seen' : List Seen} {clocks : List (Option Timer)}

theorem startTimer_seen (tout : ℤ) :
    (startTimer tout).Follows (.observe see) [] fun start timer => Starts tout start timer := by
  rw [startTimer]
  split
  · next hzero => exact Or.inl ⟨hzero,rfl,rfl⟩
  · next hne =>
    refine Program.Follows.bind (Program.Follows.perform trivial fun clock _ => Or.inr ⟨clock,rfl,?_⟩)
    rw [timerOf,if_neg hne]

theorem Starts.timerOf_eq (h : Starts tout start timer) (l : List Seen) :
    timerOf tout (readings (start ++ l)).head?.join = timer := by
  rcases h with ⟨rfl,rfl,rfl⟩ | ⟨clock,rfl,rfl⟩
  · rw [timerOf,if_pos rfl]
  · rfl

theorem Starts.polls_eq (h : Starts tout start timer) (l : List Seen) :
    polls (start ++ l) = polls l := by
  rcases h with ⟨rfl,rfl,rfl⟩ | ⟨clock,rfl,rfl⟩ <;> rfl

theorem Starts.not_failed (h : Starts tout start timer) (e : Errno) : .failed e ∉ start := by
  rcases h with ⟨rfl,rfl,rfl⟩ | ⟨clock,rfl,rfl⟩ <;> simp

theorem polls_idleTurns (clocks : List (Option Timer)) (l : List Seen) :
    polls (idleTurns clocks ++ l) = clocks.map (fun clock => (.ENOMSG,clock)) ++ polls l := by
  induction clocks with
  | nil => rfl
  | cons clock clocks ih => simpa [idleTurns,polls] using ih

theorem polls_nil {l : List Seen} (h : ∀ e, .failed e ∉ l) : polls l = [] := by
  induction l with
  | nil => rfl
  | cons s l ih =>
    cases s with
    | failed e => exact absurd List.mem_cons_self (h e)
    | read clock => simpa [polls] using ih fun e he => h e (List.mem_cons_of_mem _ he)

theorem readings_append (l l' : List Seen) : readings (l ++ l') = readings l ++ readings l' := by
  induction l with
  | nil => rfl
  | cons s l ih => cases s <;> simp [readings,ih]

theorem removed_idleTurns (clocks : List (Option Timer)) : .failed .EIDRM ∉ idleTurns clocks := by
  simp [idleTurns]

theorem Starts.polls_idleTurns (h : Starts tout start timer) (clocks : List (Option Timer))
    (l : List Seen) :
    polls (start ++ idleTurns clocks ++ l) = clocks.map (fun clock => (.ENOMSG,clock)) ++ polls l := by
  rw [List.append_assoc,h.polls_eq,MsgQ.polls_idleTurns]

theorem Starts.removed_iff (h : Starts tout start timer) (clocks : List (Option Timer))
    (l : List Seen) :
    .failed .EIDRM ∈ start ++ idleTurns clocks ++ l ↔ .failed .EIDRM ∈ l := by
  simp only [List.mem_append,h.not_failed,removed_idleTurns,false_or]

theorem running_idleTurns (hclocks : ∀ clock ∈ clocks, Timer.tmIsTimeout clock timer = 0) (e : Errno) :
    ∀ p ∈ clocks.map (fun clock => (e,clock)), Timer.tmIsTimeout p.2 timer = 0 := by
  intro p hp
  obtain ⟨clock,hclock,rfl⟩ := List.mem_map.mp hp
  exact hclocks clock hclock

def OnlyReads (seen seen' : List Seen) : Prop := ∃ tail, seen' = seen ++ tail ∧ ∀ e, .failed e ∉ tail

theorem OnlyReads.refl (seen : List Seen) : OnlyReads seen seen := ⟨[],by simp,by simp⟩

theorem polled {tired : Prop} {qid : ℤ} {msgid : Sys ℤ} {nowait delay : Bool} {rest : Received → Sys ℤ}
    (hmsgid : ∀ seen, msgid.Follows (.observe see) seen fun seen' _ => seen' = seen)
    (hgot : ∀ pkg seen, (rest (.got pkg)).Follows (.observe see) seen fun seen' ret =>
      OnlyReads seen seen' ∧ ret ≠ 1)
    (htimeout : ¬ tired ∧ rest .timeout = .ret 1 ∨ tired ∧ rest .timeout = .ret (-1))
    (hfailed : ∀ e, rest (.failed e) = .ret (-1)) :
    ((startTimer tout).bind fun timer => (receiveLoop qid msgid nowait timer delay).bind rest).Follows
      (.observe see) [] (Outcome tired tout) := by
  refine Program.Follows.bind ((startTimer_seen tout).mono fun start timer hstart => ?_)
  refine Program.Follows.bind ((loop_seen hmsgid).mono ?_)
  rintro seen (pkg | _ | e) ⟨clocks,hclocks,hseen⟩
  · subst hseen
    apply (hgot pkg _).mono
    rintro _ ret ⟨⟨tail,rfl,htail⟩,hret⟩
    refine .quiet ?_ ?_ hret
    · rw [hstart.polls_idleTurns,polls_nil htail,List.append_nil,List.append_assoc,hstart.timerOf_eq]
      exact running_idleTurns hclocks .ENOMSG
    · rw [hstart.removed_iff]
      exact fun hremoved => absurd hremoved (htail .EIDRM)
  · obtain ⟨e,clock,rfl,hexpired⟩ := hseen
    rcases htimeout with ⟨htired,hret⟩ | ⟨htired,hret⟩
    · rw [hret]
      refine .expired (hstart.polls_idleTurns clocks _) ?_ ?_ ?_ ?_ htired
      · rw [List.append_assoc,hstart.timerOf_eq]
        exact running_idleTurns hclocks .ENOMSG
      · rwa [List.append_assoc,hstart.timerOf_eq]
      · rw [hstart.removed_iff]
        simp [eq_comm]
      · rw [readings_append]
        simp [readings]
    · rw [hret]
      exact .tired htired
  · obtain ⟨clock,rfl,hrunning⟩ := hseen
    rw [hfailed]
    refine .quiet ?_ (fun _ => rfl) (by decide)
    rw [hstart.polls_idleTurns,List.append_assoc,hstart.timerOf_eq]
    intro p hp
    rcases List.mem_append.mp hp with hp | hp
    · exact running_idleTurns hclocks .ENOMSG p hp
    · obtain rfl := List.mem_singleton.mp hp
      exact hrunning

def NotReceive (c : SysCall) : Prop := ∀ qid limit t nowait, c ≠ .msgrcv qid limit t nowait

theorem notReceive_housekeeping : Housekeeping NotReceive where
  stale _ := by simp [NotReceive]
  fault := by simp [NotReceive]
  malloc _ := by simp [NotReceive]
  free _ := by simp [NotReceive]
  clock := by simp [NotReceive]
  getpid := by simp [NotReceive]

theorem OnlyReads.next {c : SysCall} (h : OnlyReads seen seen') (hc : NotReceive c) (r : c.Answer) :
    OnlyReads seen ((Program.Protocol.observe see).next seen' c r) := by
  obtain ⟨tail,rfl,htail⟩ := h
  refine ⟨tail ++ (see ⟨c,r⟩).toList,List.append_assoc ..,fun e he => ?_⟩
  rcases List.mem_append.mp he with he | he
  · exact htail e he
  · cases c with
    | msgrcv qid limit t nowait => exact hc qid limit t nowait rfl
    | _ => simp [see] at he

theorem accept_seen (srv : MsgQSrv) (pkg : Message) (seen : List Seen) :
    Program.Follows (.observe see) (if srv.cltAmt ≥ messageQueueMaxClient then pure (-1,srv)
      else do
        let client ← srv.find pkg.xid
        if client = srv.head then do
          let r ← srv.enroll pkg.xid
          match r.1 with
          | none => pure (-1,r.2)
          | some client => r.2.respond client pkg
        else srv.respond client pkg : Sys (ℤ × MsgQSrv)) seen fun seen' r =>
            OnlyReads seen seen' ∧ r.1 ≠ 1 := by
  have haccept := MsgQSrv.accept_within notReceive_housekeeping srv pkg fun _ _ => by simp [NotReceive]
  refine (haccept.of_within (OnlyReads.refl seen) (fun _ _ _ _ => trivial) fun _ _ r h hc =>
    h.next hc r).mono ?_
  exact fun _ r h => ⟨h.1,h.2.2⟩

def IsType (msgid : Sys ℤ) : Prop := msgid = Sys.request .getpid ∨ ∃ t, msgid = .ret t

theorem type_seen {msgid : Sys ℤ} (h : IsType msgid) (seen : List Seen) :
    msgid.Follows (.observe see) seen fun seen' _ => seen' = seen := by
  rcases h with rfl | ⟨t,rfl⟩
  · exact Program.Follows.perform trivial fun _ _ => List.append_nil seen
  · rfl

/-- Every poller is such a frame, unless it returns at once. -/
theorem poller_frame (p : Poller) (tout : ℤ) :
    (∃ ret, p.program tout = .ret ret ∧ (ret = -1 ∨ ret = 0)) ∨
    ∃ qid msgid nowait delay rest, IsType msgid ∧
      p.program tout = (startTimer tout).bind (fun timer =>
        (receiveLoop qid msgid nowait timer delay).bind rest) ∧
      (∀ pkg seen, (rest (.got pkg)).Follows (.observe see) seen fun seen' ret =>
        OnlyReads seen seen' ∧ ret ≠ 1) ∧
      (¬ p.Tired ∧ rest .timeout = .ret 1 ∨ p.Tired ∧ rest .timeout = .ret (-1)) ∧
      ∀ e, rest (.failed e) = .ret (-1) := by
  cases p with
  | clientRecv client data len =>
    cases data with
    | none => exact Or.inl ⟨-1,rfl,Or.inl rfl⟩
    | some data =>
      rw [Poller.program,MsgQClt.recv]
      split
      · exact Or.inl ⟨-1,rfl,Or.inl rfl⟩
      simp only [Program.bind_eq,Program.bind_assoc]
      refine Or.inr ⟨_,_,_,_,_,Or.inl rfl,rfl,fun pkg seen => ?_,Or.inl ⟨id,rfl⟩,fun _ => rfl⟩
      exact Program.Follows.bind (Program.Follows.bind (copyOut_follows trivial ⟨.refl seen,by simp⟩))
  | monitorevent client toutCnt =>
    rw [Poller.program,MsgQClt.monitorevent]
    simp only [Program.bind_eq,Program.bind_assoc]
    refine Or.inr ⟨_,_,_,_,_,Or.inr ⟨_,rfl⟩,rfl,fun pkg seen => ?_,?_,fun _ => rfl⟩
    · dsimp only
      split
      · exact ⟨.refl seen,by simp⟩
      · refine Program.Follows.bind
          (Program.Follows.bind (Program.Follows.perform trivial fun res _ => ?_))
        split
        · exact ⟨⟨[],rfl,by simp⟩,by simp⟩
        · exact ⟨⟨[],rfl,by simp⟩,by simp⟩
    · dsimp only
      split
      · next htired => exact Or.inr ⟨htired,rfl⟩
      · next htired => exact Or.inl ⟨htired,rfl⟩
  | serverRecv srv data len =>
    cases data with
    | none => exact Or.inl ⟨-1,rfl,Or.inl rfl⟩
    | some data =>
      rw [Poller.program,MsgQSrv.recv]
      split
      · exact Or.inl ⟨-1,rfl,Or.inl rfl⟩
      split
      · exact Or.inl ⟨0,rfl,Or.inr rfl⟩
      simp only [Program.bind_eq,Program.bind_assoc]
      refine Or.inr ⟨_,_,_,_,_,Or.inr ⟨_,rfl⟩,rfl,fun pkg seen => ?_,Or.inl ⟨id,rfl⟩,fun _ => rfl⟩
      exact Program.Follows.bind (Program.Follows.bind (copyOut_follows trivial ⟨.refl seen,by simp⟩))
  | monitorrequest srv =>
    rw [Poller.program,MsgQSrv.monitorrequest]
    simp only [Program.bind_eq,Program.bind_assoc]
    refine Or.inr ⟨_,_,_,_,_,Or.inr ⟨_,rfl⟩,rfl,fun pkg seen => ?_,Or.inl ⟨id,rfl⟩,fun _ => rfl⟩
    exact Program.Follows.bind (accept_seen srv pkg seen)

theorem poller_seen (p : Poller) (tout : ℤ) :
    (p.program tout).Follows (.observe see) [] (Outcome p.Tired tout) := by
  rcases poller_frame p tout with ⟨ret,hp,hret⟩ | ⟨_,_,_,_,_,hmsgid,hp,hgot,htimeout,hfailed⟩
  · rw [hp]
    exact .quiet (by simp [polls]) (by simp) (by omega)
  · rw [hp]
    exact polled (type_seen hmsgid) hgot htimeout hfailed

def undelivered : Program.Protocol SysCall SysCall.Answer Unit where
  allows _ _ := True
  answers
    | _, .msgrcv _ _ _ _, r => ∃ e, r = .error e
    | _, _, _ => True
  next _ _ _ := ()

theorem undelivered_loop {msgid : Sys ℤ} (hmsgid : IsType msgid) (qid : ℤ) (nowait : Bool)
    (timer : Timer)
    (delay : Bool) : (receiveLoop qid msgid nowait timer delay).Follows undelivered () fun _ r =>
      r = .timeout ∨ ∃ e, r = .failed e := by
  have htime : Timeless undelivered () := ⟨⟨trivial,fun _ => rfl⟩,fun _ => ⟨trivial,fun _ => rfl⟩⟩
  have htype : msgid.Follows undelivered () fun a t => a = () ∧ True := by
    rcases hmsgid with rfl | ⟨t,rfl⟩
    · exact Program.Follows.perform trivial fun _ _ => ⟨rfl,trivial⟩
    · exact ⟨rfl,trivial⟩
  refine receiveLoop_follows_of htime htype (fun _ _ => trivial) (fun _ _ _ => rfl) ?_ (Or.inl rfl)
    fun e => Or.inr ⟨e,rfl⟩
  rintro _ _ pkg ⟨e,he⟩
  exact absurd he (by simp)

/-- A poller for which `msgrcv` fails returns, unless the queue is found empty again and again. -/
theorem poller_ends (p : Poller) (tout : ℤ) (n : ℕ) :
    Program.Ends (patient.both undelivered) (p.program tout) (n,()) fun _ ret =>
      ret = -1 ∨ ret = 0 ∨ ret = 1 := by
  rcases poller_frame p tout with ⟨ret,hp,hret⟩ |
    ⟨qid,msgid,nowait,delay,rest,hmsgid,hp,_,htimeout,hfailed⟩
  · rw [hp]
    exact .ret (by omega)
  rw [hp]
  have htime : Timeless undelivered () := ⟨⟨trivial,fun _ => rfl⟩,fun _ => ⟨trivial,fun _ => rfl⟩⟩
  have htype (n : ℕ) : Program.Ends patient msgid n fun n' _ => n' = n := by
    rcases hmsgid with rfl | ⟨t,rfl⟩
    · exact .perform trivial fun _ _ => rfl
    · exact .ret rfl
  refine Program.Ends.bind (((startTimer_patient tout n).both (htime.startTimer tout)).mono ?_)
  rintro ⟨n,_⟩ timer _
  refine Program.Ends.bind (((receiveLoop_patient htype qid nowait timer delay n).both
    (undelivered_loop hmsgid qid nowait timer delay)).mono ?_)
  rintro s _ ⟨_,rfl | ⟨e,rfl⟩⟩
  · rcases htimeout with ⟨_,hrest⟩ | ⟨_,hrest⟩
    · rw [hrest]
      exact .ret (Or.inr (Or.inr rfl))
    · rw [hrest]
      exact .ret (Or.inl rfl)
  · rw [hfailed]
    exact .ret (Or.inl rfl)

theorem tmSetMs_timerOf (c : Timer.Reading) {ms : ℕ} (hpos : 0 < ms) (hmax : ms < 2^31) :
    Timer.tmSetMs (some c.toTimer) (some ⟨0,0⟩) ms = (0,some (timerOf ms (some c.toTimer))) := by
  have hmod : ((ms : ℤ) % 2^32).toNat = ms := by omega
  rw [timerOf,if_neg (by omega),hmod]
  rfl

theorem expired_late_iff {c₀ c₁ : Timer.Reading} (hle : c₀.toNs ≤ c₁.toNs) (hmax : tout < 2^31)
    (hne : tout ≠ 0)
    (hexpired : Timer.tmIsTimeout (some c₁.toTimer) (timerOf tout (some c₀.toTimer)) ≠ 0) :
    (tout-1) * 1000000 < c₁.toNs - c₀.toNs ↔
      (tout * 1000000 - (c₁.toNs - c₀.toNs)) / 1000000 < Timer.maxInterval := by
  rcases lt_or_gt_of_ne hne with hneg | hpos
  · simp only [Timer.maxInterval]
    omega
  · obtain ⟨ms,rfl⟩ := Int.eq_ofNat_of_zero_le hpos.le
    have hset := tmSetMs_timerOf c₀ (by omega : 0 < ms) (by omega)
    obtain ⟨hzero,_⟩ := Timer.tmIsTimeout_iff c₁ hset
    have hmod := toInt_emod ((Timer.deadline c₀ ms - c₁.toNs) / 1000000)
    have hrange := toInt_range ((Timer.deadline c₀ ms - c₁.toNs) / 1000000)
    simp only [Timer.deadline,Timer.maxInterval] at *
    omega

theorem Monotonic.ends (h : Monotonic seen) (hlast : (readings seen).getLast? = some clock) :
    ∃ c₀ c₁ : Timer.Reading, (readings seen).head?.join = some c₀.toTimer ∧ clock = some c₁.toTimer ∧
      c₀.toNs ≤ c₁.toNs := by
  obtain ⟨clocks,hread,hmono⟩ := h
  rw [hread] at hlast ⊢
  cases clocks with
  | nil => exact absurd hlast (by simp)
  | cons c₀ clocks =>
    rw [List.getLast?_map,List.getLast?_eq_some_getLast (List.cons_ne_nil _ _),
      Option.map_some] at hlast
    refine ⟨c₀,_,rfl,(Option.some.inj hlast).symm,?_⟩
    rcases List.mem_cons.mp (List.getLast_mem (List.cons_ne_nil c₀ clocks)) with hlast | hlast
    · rw [hlast]
    · exact (List.pairwise_cons.mp hmono).1 _ hlast

theorem Outcome.truthful_iff {tired : Prop} (h : Outcome tired tout seen ret) (hclock : Monotonic seen)
    (hmax : tout < 2^31) : Truthful tout seen ret ↔ tired ∨ Timely tout seen := by
  cases h with
  | quiet hpolls hremoved hret =>
    exact iff_of_true ⟨fun h => absurd h hret,hremoved⟩
      (Or.inr fun p hp hexpired => absurd (hpolls p hp) hexpired)
  | tired htired => exact iff_of_true ⟨fun h => absurd h (by decide),fun _ => rfl⟩ (Or.inl htired)
  | @expired ps e clock hpolls hclocks hexpired hremoved hlast htired =>
    have htimely : Timely tout seen ↔ tout ≠ 0 ∧ e ≠ .EIDRM ∧
        (tout * 1000000 - elapsed seen clock) / 1000000 < Timer.maxInterval := by
      rw [Timely,hpolls]
      refine ⟨fun h => h (e,clock) (by simp) hexpired,fun h p hp hp' => ?_⟩
      rcases List.mem_append.mp hp with hp | hp
      · exact absurd (hclocks p hp) hp'
      · obtain rfl := List.mem_singleton.mp hp
        exact h
    have htruthful : Truthful tout seen 1 ↔
        tout ≠ 0 ∧ e ≠ .EIDRM ∧ (tout-1) * 1000000 < elapsed seen clock := by
      rw [Truthful,hlast,hremoved,Option.join_some,and_comm (a := e ≠ .EIDRM),← and_assoc]
      simp
    obtain ⟨c₀,c₁,hfirst,rfl,hle⟩ := hclock.ends hlast
    have helapsed : elapsed seen (some c₁.toTimer) = c₁.toNs - c₀.toNs := by
      rw [elapsed,hfirst]
      rfl
    rw [hfirst] at hexpired
    rw [htimely,htruthful,helapsed,or_iff_right htired]
    refine and_congr_right fun hne => and_congr_right fun _ => ?_
    exact expired_late_iff hle hmax hne hexpired

/-- A poller reports the truth in exactly the runs in which no poll finds the timer expired too
early, without a timeout, or with the queue removed. Where `msgrcv` fails it returns, unless the
queue is found empty again and again. -/
theorem poller_truthful (p : Poller) (tout : ℤ) :
    (∀ tr ret, (p.program tout).Yields tr ret → Monotonic (tr.filterMap see) → tout < 2^31 →
      (Truthful tout (tr.filterMap see) ret ↔ p.Tired ∨ Timely tout (tr.filterMap see))) ∧
    ∀ n, Program.Ends (patient.both undelivered) (p.program tout) (n,()) fun _ ret =>
      ret = -1 ∨ ret = 0 ∨ ret = 1 :=
  ⟨fun _ _ hrun hclock hmax => ((poller_seen p tout).observed hrun).truthful_iff hclock hmax,
    poller_ends p tout⟩

def pollingServer : MsgQSrv := ⟨0,0,1,0,fun _ => ⟨0,⟨0,0⟩,1,1⟩,Registry.empty⟩

/-- Two polls of a timeout of two milliseconds, after half a millisecond and after three. -/
theorem poller_truthful_sample : Truthful 2
    [.read (some ⟨5,0⟩),.failed .ENOMSG,.read (some ⟨5,500000⟩),.failed .ENOMSG,.read
      (some ⟨5,3000000⟩)] 1 := by
  have hrun : ((Poller.serverRecv pollingServer (some [0]) 1).program 2).Yields
      [⟨.clockGettime,some ⟨5,0⟩⟩,⟨.msgrcv 0 2040 1 true,.error .ENOMSG⟩,
        ⟨.clockGettime,some ⟨5,500000⟩⟩,
        ⟨.usleep 1000,()⟩,⟨.msgrcv 0 2040 1 true,.error .ENOMSG⟩,⟨.clockGettime,some ⟨5,3000000⟩⟩] 1 :=
    Program.replay_yields (rfl : Program.replay 20 _ _ = _)
  refine ((poller_truthful _ _).1 _ _ hrun
    ⟨[⟨⟨5,0⟩,by decide,by decide⟩,⟨⟨5,500000⟩,by decide,by decide⟩,
    ⟨⟨5,3000000⟩,by decide,by decide⟩],rfl,by simp [Timer.toNs]⟩ (by decide)).mpr (Or.inr ?_)
  unfold Timely
  decide

/-- A server that waits without a timeout for a queue that is removed. -/
theorem blocking_timeout :
    ¬ ∀ (p : Poller) (tout : ℤ) (tr : List (Program.Exchange SysCall SysCall.Answer))
    (ret : ℤ), (p.program tout).Yields tr ret → Monotonic (tr.filterMap see) → tout < 2^31 →
      Truthful tout (tr.filterMap see) ret := by
  intro h
  have hrun : ((Poller.serverRecv pollingServer (some [0]) 1).program 0).Yields
      [⟨.msgrcv 0 2040 1 false,.error .EIDRM⟩,⟨.clockGettime,some ⟨5,0⟩⟩] 1 :=
    Program.replay_yields (rfl : Program.replay 20 _ _ = _)
  have htruthful := h _ _ _ _ hrun ⟨[⟨⟨5,0⟩,by decide,by decide⟩],rfl,by simp⟩ (by decide)
  exact (htruthful.1 rfl).1 rfl

end MsgQ
end LixRtos
