import LixRtos.MsgQLoops
import LixRtos.Notes

/-! A server and any number of clients on the queue of one name, and clients that are destroyed.
The processes note what their calls return, so that a run shows what a party notices. -/
namespace LixRtos
namespace MsgQ
namespace SharedQueue

/-- The queues that exist, and the queue of each key. -/
structure QueueWorld where
  queues : ℤ → Option (List Message)
  keys : ℤ → Option ℤ

/-- The pids of the clients, the keys of the files, and who may remove a queue; `none` is the
server. -/
structure Host (ι : Type) where
  pid : ι → ℤ
  keyOf : Path → ℤ
  mayRemove : Option ι → ℤ → Bool

def isGone (e : Errno) : Bool := e = .EIDRM ∨ e = .other 22

variable {ι : Type}

def serve (host : Host ι) (w : QueueWorld) : Option ι → (c : SysCall) → c.Answer → Option QueueWorld
  | _, .ftok path _, .ok key => if key = host.keyOf path then some w else none
  | _, .msgget key flag, .ok id =>
    match w.keys key with
    | some id' => if id = id' then some w else none
    | none =>
      if flag &&& ipcCreat ≠ 0 ∧ w.queues id = none then
        some ⟨Function.update w.queues id (some []),Function.update w.keys key (some id)⟩
      else none
  | _, .msgget key _, .error .ENOENT => if w.keys key = none then some w else none
  | _, .msgsnd id pkg _, .ok _ =>
    (w.queues id).map fun q => { w with queues := Function.update w.queues id (some (q ++ [pkg])) }
  | _, .msgsnd id _ _, .error e => if isGone e = (w.queues id).isNone then some w else none
  | _, .msgrcv id limit t _, .ok pkg =>
    match w.queues id with
    | some q =>
      match receiveMessage limit t q with
      | .message m rest =>
        if m = pkg then some { w with queues := Function.update w.queues id (some rest) } else none
      | _ => none
    | none => none
  | _, .msgrcv id _ _ _, .error e => if isGone e = (w.queues id).isNone then some w else none
  | p, .msgctlRmid id, .ok _ =>
    if (w.queues id).isSome ∧ host.mayRemove p id then
      some ⟨Function.update w.queues id none,fun k => if w.keys k = some id then none else w.keys k⟩
    else none
  | p, .msgctlRmid id, .error _ => if (w.queues id).isSome ∧ host.mayRemove p id then none else some w
  | _, .msgctlStat id, .ok n =>
    if (w.queues id).map (fun q => (q.length : ℤ)) = some n then some w else none
  | some i, .getpid, r => if r = host.pid i then some w else none
  | _, _, _ => some w

inductive ClientOp
  | send (data : Option Bytes) (len : ℕ)
  | recv (data : Option Bytes) (len tout : ℤ)
  | requestevent (key : Option Path) (hand : ℕ)
  | destroy

inductive ServerOp
  | send (data : Option Bytes) (len : ℕ)
  | recv (data : Option Bytes) (len tout : ℤ)
  | monitorrequest (tout : ℤ)

/-- What a process notes: that it is going to destroy its client, and what a call returned. -/
inductive Note
  | destroying (n : ℕ)
  | returned (n : ℕ) (ret : ℤ) (data : Option Bytes)
  deriving DecidableEq

abbrev Process := Program (SysCall ⊕ Note) (Program.NotedAnswer SysCall.Answer Note)

/-- The client object at `addr` of a process with this registry. -/
structure Client where
  clt : MsgQClt
  addr : ℕ
  reg : Registry

def ClientOp.run (clt : MsgQClt) : ClientOp → Sys (ℤ × Option Bytes × MsgQClt)
  | .send data len => do
    let r ← clt.send data len
    pure (r,none,clt)
  | .recv data len tout => do
    let r ← clt.recv data len tout
    pure (r.1,r.2,clt)
  | .requestevent key hand => do
    let r ← clt.requestevent key hand
    pure (r.1,none,r.2)
  | .destroy => pure (0,none,clt)

def ServerOp.run (srv : MsgQSrv) : ServerOp → Sys (ℤ × Option Bytes × MsgQSrv)
  | .send data len => do
    let r ← srv.send data len
    pure (r.1,none,r.2)
  | .recv data len tout => do
    let r ← srv.recv data len tout
    pure (r.1,r.2.2,r.2.1)
  | .monitorrequest tout => do
    let r ← srv.monitorrequest tout
    pure (r.1,none,r.2)

/-- One call of a client. A destroyed client makes no more calls; `skips` tells which `destroy`
calls are left out. -/
def clientTurn (skips : ℕ → Bool) (script : ℕ → ClientOp) (s : ℕ × Client) :
    Process (ℕ × Client ⊕ Unit) :=
  match script s.1 with
  | .destroy =>
    if skips s.1 then pure (.inl (s.1+1,s.2))
    else do
      Program.note (.destroying s.1)
      let r ← Program.noted (s.2.clt.destroy s.2.addr s.2.reg)
      Program.note (.returned s.1 r.1 none)
      if r.1 = 0 then pure (.inr ()) else pure (.inl (s.1+1,s.2))
  | op => do
    let r ← Program.noted (op.run s.2.clt)
    Program.note (.returned s.1 r.1 r.2.1)
    pure (.inl (s.1+1,{ s.2 with clt := r.2.2 }))

def clientProcess (name : Path) (client : Client) (skips : ℕ → Bool) (script : ℕ → ClientOp) :
    Process Unit := do
  let r ← Program.noted (client.clt.init (some name))
  if r.1 = 0 then Program.iterate (clientTurn skips script) (0,{ client with clt := r.2 })
  else pure ()

def serverProcess (name : Path) (srv : MsgQSrv) (script : ℕ → ServerOp) : Process Unit := do
  let r ← Program.noted (srv.init (some name))
  if r.1 = 0 then
    Program.iterate (fun s : ℕ × MsgQSrv => do
      let r ← Program.noted ((script s.1).run s.2)
      Program.note (.returned s.1 r.1 r.2.1)
      pure (.inl (s.1+1,r.2.2))) (0,r.2)
  else pure ()

structure Parties (ι : Type) where
  name : Path
  srv : MsgQSrv
  serverScript : ℕ → ServerOp
  clients : ι → Client
  scripts : ι → ℕ → ClientOp

/-- The parties on a host without queues, without the `destroy` calls in `skips`. -/
def Parties.start (parties : Parties ι) (skips : ι → ℕ → Bool) : Program.Config (Option ι) QueueWorld
    (SysCall ⊕ Note) (Program.NotedAnswer SysCall.Answer Note) where
  world := ⟨fun _ => none,fun _ => none⟩
  procs
    | none => serverProcess parties.name parties.srv parties.serverScript
    | some i => clientProcess parties.name (parties.clients i) (skips i) (parties.scripts i)

abbrev Event (ι : Type) := Program.Event (Option ι) (SysCall ⊕ Note)
    (Program.NotedAnswer SysCall.Answer Note)

variable [DecidableEq ι]

def destroyingAt (tr : List (Event ι)) (i : ι) : Option ℕ :=
  tr.foldl (fun o e => if e.pid = some i then
    match e.call with
    | .inr (.destroying n) => some n
    | .inr (.returned _ _ _) => none
    | .inl _ => o
    else o) none

/-- The event is not one of a `destroy` call in `skips`. -/
def keeps (skips : ι → ℕ → Bool) (tr : List (Event ι)) (e : Event ι) : Bool :=
  match e.pid, e.call with
  | none, _ => true
  | some i, .inr (.destroying n) => !skips i n
  | some i, _ => (destroyingAt tr i).all fun n => !skips i n

/-- A `destroy` call in `skips` leaves the queue and all messages that are not for its client. -/
def KeepsQueue (host : Host ι) (skips : ι → ℕ → Bool) (w : QueueWorld) (tr : List (Event ι))
    (e : Event ι) : Prop :=
  ∀ i n qid r, e = ⟨some i,.inl (.msgctlRmid qid),r⟩ → destroyingAt tr i = some n → skips i n = true →
    ∃ w', serve host w (some i) (.msgctlRmid qid) r = some w' ∧
      ∀ q, w.queues qid = some q → ∃ q', w'.queues qid = some q' ∧
        q'.filter (·.msgid ≠ host.pid i) = q.filter (·.msgid ≠ host.pid i)

/-- The queue that a `destroy` call in `skips` removes is gone already, or the caller may not remove
it. -/
def NothingToRemove (host : Host ι) (skips : ι → ℕ → Bool) (w : QueueWorld) (tr : List (Event ι))
    (e : Event ι) :
    Prop :=
  ∀ i n qid r, e = ⟨some i,.inl (.msgctlRmid qid),r⟩ → destroyingAt tr i = some n → skips i n = true →
    w.queues qid = none ∨ host.mayRemove (some i) qid = false

variable {host : Host ι} {skips : ι → ℕ → Bool} {w w' : QueueWorld} {tr : List (Event ι)}
  {e : Event ι} {i : ι}

theorem destroyingAt_snoc (tr : List (Event ι)) (e : Event ι) (i : ι) :
    destroyingAt (tr ++ [e]) i = if e.pid = some i then
      match e.call with
      | .inr (.destroying n) => some n
      | .inr (.returned _ _ _) => none
      | .inl _ => destroyingAt tr i
      else destroyingAt tr i := by
  simp [destroyingAt]

theorem keepsQueue_iff
    (hserve : (Program.Kernel.noted (serve host)) w e.pid e.call e.answer = some w') :
    KeepsQueue host skips w tr e ↔ NothingToRemove host skips w tr e := by
  constructor
  · rintro hkeeps i n qid r rfl hat hskip
    obtain ⟨w₁,hw₁,hqueue⟩ := hkeeps i n qid r rfl hat hskip
    by_contra hremove
    obtain ⟨hq,hmay⟩ := not_or.mp hremove
    rw [Bool.not_eq_false] at hmay
    obtain ⟨q,hq⟩ := Option.ne_none_iff_exists'.mp hq
    rcases r with err | _
    · simp [serve,hq,hmay] at hw₁
    · simp only [serve,hq,hmay,Option.isSome_some,and_self,if_true,Option.some.injEq] at hw₁
      subst hw₁
      obtain ⟨q',hq',-⟩ := hqueue q hq
      simp at hq'
  · rintro hnothing i n qid r rfl hat hskip
    refine ⟨w',hserve,fun q hq => ?_⟩
    rcases hnothing i n qid r rfl hat hskip with hnone | hmay
    · exact absurd (hq.symm.trans hnone) (by simp)
    · rcases r with err | _
      · obtain rfl : w = w' := by simpa [Program.Kernel.noted,serve,hmay] using hserve
        exact ⟨q,hq,rfl⟩
      · simp [Program.Kernel.noted,serve,hmay] at hserve

/-- A process that makes no note of a `destroy` in `skips`. -/
def quiet (skips : ℕ → Bool) : Program.Protocol (SysCall ⊕ Note)
    (Program.NotedAnswer SysCall.Answer Note) Unit where
  allows
    | _, .inr (.destroying n) => skips n = false
    | _, _ => True
  answers _ _ _ := True
  next _ _ _ := ()

theorem noted_quiet {α : Type} (skips : ℕ → Bool) (p : Sys α) :
    (Program.noted p : Process α).Follows (quiet skips) () fun _ _ => True := by
  induction p with
  | ret x => trivial
  | call c next ih => exact ⟨trivial,fun r _ => ih r⟩
  | loop body s next ihb ihn =>
    refine ⟨fun _ _ => True,trivial,fun _ s _ => (ihb s).mono ?_⟩
    rintro _ (s | b) _
    · trivial
    · exact ihn b

theorem clientTurn_quiet {skips : ℕ → Bool} {script : ℕ → ClientOp} {s : ℕ × Client}
    (h : script s.1 = .destroy → skips s.1 = false) :
    clientTurn (fun _ => false) script s = clientTurn skips script s ∧
      (clientTurn skips script s).Follows (quiet skips) () fun _ _ => True := by
  have hop (op : ClientOp) : (do
      let r ← Program.noted (op.run s.2.clt)
      Program.note (.returned s.1 r.1 r.2.1)
      pure (.inl (s.1+1,{ s.2 with clt := r.2.2 })) :
        Process (ℕ × Client ⊕ Unit)).Follows (quiet skips) ()
        fun _ _ => True :=
    Program.Follows.bind ((noted_quiet skips _).mono fun _ _ _ =>
      Program.Follows.bind (Program.Follows.note trivial trivial))
  unfold clientTurn
  cases hscript : script s.1 with
  | destroy =>
    simp only [h hscript,Bool.false_eq_true,if_false,true_and]
    refine Program.Follows.bind (Program.Follows.note (h hscript) ?_)
    refine Program.Follows.bind ((noted_quiet skips _).mono fun _ r _ => ?_)
    refine Program.Follows.bind (Program.Follows.note trivial ?_)
    split <;> trivial
  | send data len => exact ⟨rfl,hop _⟩
  | recv data len tout => exact ⟨rfl,hop _⟩
  | requestevent key hand => exact ⟨rfl,hop _⟩

def again (turn : ℕ × Client → Process (ℕ × Client ⊕ Unit)) : ℕ × Client ⊕ Unit → Process Unit :=
  Sum.elim (fun s => Program.loop turn s Program.ret) Program.ret

def removing (turn : ℕ × Client → Process (ℕ × Client ⊕ Unit)) (s : ℕ × Client) : Process Unit :=
  (Program.noted (s.2.clt.destroy s.2.addr s.2.reg)).bind fun r =>
    (Program.note (.returned s.1 r.1 none)).bind fun _ =>
      again turn (if r.1 = 0 then .inr () else .inl (s.1+1,s.2))

/-- The process of a client, and the one without the `destroy` calls in `skips`. -/
inductive Related (skips : ℕ → Bool) (script : ℕ → ClientOp) (tr : List (Event ι)) (i : ι)
    (p p' : Process Unit) : Prop
  | running (q : Process (ℕ × Client ⊕ Unit)) (hq : q.Follows (quiet skips) () fun _ _ => True)
      (hat : ∀ n, destroyingAt tr i = some n → skips n = false)
      (hp : p = q.bind (again (clientTurn (fun _ => false) script)))
      (hp' : p' = q.bind (again (clientTurn skips script)))
  | destroying (s : ℕ × Client) (hskip : skips s.1 = true)
      (hp : p = .call (.inr (.destroying s.1)) fun _ => removing
        (clientTurn (fun _ => false) script) s)
      (hp' : p' = .loop (clientTurn skips script) (s.1+1,s.2) .ret)
  | removing (s : ℕ × Client) (hskip : skips s.1 = true) (hat : destroyingAt tr i = some s.1)
      (hp : p = SharedQueue.removing (clientTurn (fun _ => false) script) s)
      (hp' : p' = .loop (clientTurn skips script) (s.1+1,s.2) .ret)
  | returning (s : ℕ × Client) (hskip : skips s.1 = true) (hat : destroyingAt tr i = some s.1)
      (hp : p = .call (.inr (.returned s.1 (-1) none)) fun _ =>
        .loop (clientTurn (fun _ => false) script) (s.1+1,s.2) .ret)
      (hp' : p' = .loop (clientTurn skips script) (s.1+1,s.2) .ret)

def RelatedParties (parties : Parties ι) (skips : ι → ℕ → Bool) (tr : List (Event ι)) :
    Option ι → Process Unit → Process Unit → Prop
  | none, p, p' => p = p'
  | some i, p, p' => Related (skips i) (parties.scripts i) tr i p p'

theorem Related.other {skips : ℕ → Bool} {script : ℕ → ClientOp} {p p' : Process Unit}
    (h : Related skips script tr i p p') (he : e.pid ≠ some i) :
    Related skips script (tr ++ [e]) i p p' := by
  have hat : destroyingAt (tr ++ [e]) i = destroyingAt tr i := by rw [destroyingAt_snoc,if_neg he]
  cases h with
  | running q hq hold hp hp' => exact .running q hq (by rwa [hat]) hp hp'
  | destroying s hskip hp hp' => exact .destroying s hskip hp hp'
  | removing s hskip hold hp hp' => exact .removing s hskip (by rwa [hat]) hp hp'
  | returning s hskip hold hp hp' => exact .returning s hskip (by rwa [hat]) hp hp'

theorem unfold_destroy {script : ℕ → ClientOp} {s : ℕ × Client} (h : script s.1 = .destroy) :
    Program.unfold (clientTurn (fun _ => false) script) s .ret =
      .call (.inr (.destroying s.1)) fun _ => removing (clientTurn (fun _ => false) script) s := by
  have hturn : clientTurn (fun _ => false) script s = (Program.note (.destroying s.1)).bind fun _ =>
      (Program.noted (s.2.clt.destroy s.2.addr s.2.reg)).bind fun r =>
        (Program.note (.returned s.1 r.1 none)).bind fun _ =>
          if r.1 = 0 then .ret (.inr ()) else .ret (.inl (s.1+1,s.2)) := by
    simp [clientTurn,h]
  rw [Program.unfold,hturn,Program.bind_assoc,Program.note,Program.bind]
  refine congrArg (Program.call _) (funext fun _ => ?_)
  rw [Program.ret_bind,Program.bind_assoc,removing]
  refine congrArg (Program.bind _) (funext fun r => ?_)
  rw [Program.bind_assoc]
  refine congrArg (Program.bind _) (funext fun _ => ?_)
  split <;> rfl

theorem clientProcess_related (name : Path) (client : Client) (skips : ℕ → Bool)
    (script : ℕ → ClientOp)
    (i : ι) : Related skips script [] i (clientProcess name client (fun _ => false) script)
      (clientProcess name client skips script) := by
  have hform (turn : ℕ × Client → Process (ℕ × Client ⊕ Unit)) :
      ((Program.noted (client.clt.init (some name))).bind fun r =>
        if r.1 = 0 then Program.iterate turn (0,{ client with clt := r.2 }) else .ret () :
          Process Unit) =
      ((Program.noted (client.clt.init (some name))).bind fun r =>
        if r.1 = 0 then .ret (.inl (0,{ client with clt := r.2 })) else .ret (.inr ())).bind
            (again turn) := by
    rw [Program.bind_assoc]
    refine congrArg (Program.bind _) (funext fun r => ?_)
    split <;> rfl
  refine .running _ ?_ nofun (hform _) (hform _)
  refine Program.Follows.bind ((noted_quiet _ _).mono fun _ r _ => ?_)
  split <;> trivial

theorem Related.loop {skips : ℕ → Bool} {script : ℕ → ClientOp} {β σ : Type}
    {body : σ → Process (σ ⊕ β)} {s : σ} {next : β → Process Unit} {p' : Process Unit}
    (h : Related skips script tr i (.loop body s next) p') :
    ∃ p'', Program.Unrolls p' p'' ∧ Related skips script tr i (Program.unfold body s next) p'' := by
  cases h with
  | running q hq hat hp hp' =>
    cases q with
    | ret x =>
      cases x with
      | inr u => exact absurd hp (by simp [again])
      | inl st =>
        obtain rfl : p' = .loop (clientTurn skips script) st .ret := hp'
        cases hp
        by_cases hleft : script st.1 = .destroy ∧ skips st.1 = true
        · have hturn : Program.unfold (clientTurn skips script) st .ret =
              .loop (clientTurn skips script) (st.1+1,st.2) .ret := by
            simp [Program.unfold,clientTurn,hleft.1,hleft.2]
          exact ⟨_,.loop (hturn ▸ .refl _),.destroying st hleft.2 (unfold_destroy hleft.1) rfl⟩
        · have hstays : script st.1 = .destroy → skips st.1 = false :=
            fun hd => by simpa [hd] using hleft
          obtain ⟨hsame,hturn⟩ := clientTurn_quiet hstays
          exact ⟨_,.loop (.refl _),.running (clientTurn skips script st) hturn hat
            (by rw [Program.unfold,hsame]; rfl) rfl⟩
    | call c nx => exact absurd hp (by simp [Program.bind])
    | loop b t nx =>
      obtain rfl : p' = .loop b t fun x => (nx x).bind (again (clientTurn skips script)) := hp'
      cases hp
      refine ⟨_,.loop (.refl _),.running (Program.unfold body s nx) hq.unfold hat ?_ ?_⟩
      · exact (Program.unfold_bind _ _ _ _).symm
      · exact (Program.unfold_bind _ _ _ _).symm
  | destroying s hskip hp hp' => exact absurd hp (by simp)
  | removing s hskip hat hp hp' => cases hp
  | returning s hskip hat hp hp' => exact absurd hp (by simp)

/-- A client that is in no `destroy` of `skips`, and makes no note of one, goes on so. -/
theorem quiet_step {skips : ι → ℕ → Bool} {c : SysCall ⊕ Note}
    {r : Program.NotedAnswer SysCall.Answer Note c}
    (hat : ∀ n, destroyingAt tr i = some n → skips i n = false) (hc : (quiet (skips i)).allows () c) :
    keeps skips tr ⟨some i,c,r⟩ = true ∧
      ∀ n, destroyingAt (tr ++ [⟨some i,c,r⟩]) i = some n → skips i n = false := by
  rw [destroyingAt_snoc,if_pos rfl]
  rcases c with c | ⟨n⟩ | ⟨n,ret,data⟩
  · exact ⟨by simpa [keeps,Option.all_eq_true] using hat,hat⟩
  · replace hc : skips i n = false := hc
    refine ⟨by simp [keeps,hc],fun m hm => ?_⟩
    obtain rfl := Option.some.inj hm
    exact hc
  · exact ⟨by simpa [keeps,Option.all_eq_true] using hat,nofun⟩

theorem keeps_inside {skips : ι → ℕ → Bool} {c : SysCall ⊕ Note}
    {r : Program.NotedAnswer SysCall.Answer Note c}
    {n : ℕ} (hat : destroyingAt tr i = some n) (hskip : skips i n = true)
    (hc : ∀ m, c ≠ .inr (.destroying m)) :
    keeps skips tr ⟨some i,c,r⟩ = false := by
  rcases c with c | ⟨m⟩ | ⟨m,ret,data⟩
  · simp [keeps,hat,hskip]
  · exact absurd rfl (hc m)
  · simp [keeps,hat,hskip]

/-- A call that both systems make. -/
theorem Related.kept {script : ℕ → ClientOp} {c : SysCall ⊕ Note}
    {next : Program.NotedAnswer SysCall.Answer Note c → Process Unit} {p' : Process Unit}
    (h : Related (skips i) script tr i (.call c next) p')
    (r : Program.NotedAnswer SysCall.Answer Note c)
    (hkeep : keeps skips tr ⟨some i,c,r⟩ = true) : ∃ next', Program.Unrolls p' (.call c next') ∧
      Related (skips i) script (tr ++ [⟨some i,c,r⟩]) i (next r) (next' r) := by
  cases h with
  | running q hq hat hp hp' =>
    cases q with
    | ret x => cases x <;> exact absurd hp (by simp [again])
    | call c' nx =>
      cases hp
      obtain rfl : p' = .call c fun r => (nx r).bind (again (clientTurn (skips i) script)) := hp'
      exact ⟨_,.refl _,.running (nx r) (hq.2 r trivial) (quiet_step hat hq.1).2 rfl rfl⟩
    | loop b t nx => exact absurd hp (by simp [Program.bind])
  | destroying s hskip hp hp' =>
    cases hp
    simp [keeps,hskip] at hkeep
  | removing s hskip hat hp hp' =>
    cases hp
    exact absurd (hkeep.symm.trans (keeps_inside hat hskip fun _ h => by cases h)) (by simp)
  | returning s hskip hat hp hp' =>
    cases hp
    exact absurd (hkeep.symm.trans (keeps_inside hat hskip fun _ h => by cases h)) (by simp)

/-- A call of a `destroy` that is left out: nothing is removed. -/
theorem Related.dropped {script : ℕ → ClientOp} {c : SysCall ⊕ Note}
    {next : Program.NotedAnswer SysCall.Answer Note c → Process Unit} {p' : Process Unit}
    (h : Related (skips i) script tr i (.call c next) p')
    (r : Program.NotedAnswer SysCall.Answer Note c)
    (hserve : (Program.Kernel.noted (serve host)) w (some i) c r = some w')
    (hcond : NothingToRemove host skips w tr ⟨some i,c,r⟩)
    (hkeep : keeps skips tr ⟨some i,c,r⟩ = false) :
    w' = w ∧ Related (skips i) script (tr ++ [⟨some i,c,r⟩]) i (next r) p' := by
  cases h with
  | running q hq hat hp hp' =>
    cases q with
    | ret x => cases x <;> exact absurd hp (by simp [again])
    | call c' nx =>
      cases hp
      simp [(quiet_step (r := r) hat hq.1).1] at hkeep
    | loop b t nx => exact absurd hp (by simp [Program.bind])
  | destroying s hskip hp hp' =>
    cases hp
    refine ⟨(Option.some.inj hserve).symm,.removing s hskip ?_ rfl hp'⟩
    rw [destroyingAt_snoc,if_pos rfl]
  | removing s hskip hat hp hp' =>
    cases hp
    rcases r with err | _
    · refine ⟨?_,.returning s hskip ?_ rfl hp'⟩
      · simp only [Program.Kernel.noted,serve] at hserve
        split at hserve
        · exact absurd hserve (by simp)
        · exact (Option.some.inj hserve).symm
      · rw [destroyingAt_snoc,if_pos rfl]
        exact hat
    · rcases hcond i s.1 _ _ rfl hat hskip with hnone | hmay
      · simp [Program.Kernel.noted,serve,hnone] at hserve
      · simp [Program.Kernel.noted,serve,hmay] at hserve
  | returning s hskip hat hp hp' =>
    cases hp
    refine ⟨(Option.some.inj hserve).symm,.running (.ret (.inl (s.1+1,s.2))) (by trivial) ?_ rfl
      (by rw [hp']; rfl)⟩
    rw [destroyingAt_snoc,if_pos rfl]
    exact fun n hn => absurd hn (by simp)

theorem related_dropping (host : Host ι) (parties : Parties ι) (skips : ι → ℕ → Bool) :
    Program.Dropping (Program.Kernel.noted (serve host)) (NothingToRemove host skips) (keeps skips)
      (RelatedParties parties skips) where
  other {tr e i p p'} h he := by
    cases i with
    | none => exact h
    | some i => exact Related.other h he
  loop {tr i _ _ _ _ _ p'} h := by
    cases i with
    | none =>
      obtain rfl : _ = p' := h
      exact ⟨_,.loop (.refl _),rfl⟩
    | some i => exact Related.loop h
  kept {tr i c next p' w r w'} h _ _ hkeep := by
    cases i with
    | none =>
      obtain rfl : _ = p' := h
      exact ⟨_,.refl _,rfl⟩
    | some i => exact Related.kept h r hkeep
  dropped {tr i c next p' w r w'} h hserve hcond hkeep := by
    cases i with
    | none => simp [keeps] at hkeep
    | some i =>
      obtain ⟨hw,hrel⟩ := Related.dropped h r hserve hcond hkeep
      exact ⟨hw,_,.refl _,hrel⟩

/-- The `destroy` calls in `skips` are local: they leave the queue and the messages of the others,
and without them all parties make the same calls with the same answers and note the same results. -/
def Local (host : Host ι) (parties : Parties ι) (skips : ι → ℕ → Bool) (tr : List (Event ι))
    (c : Program.Config (Option ι) QueueWorld (SysCall ⊕ Note)
      (Program.NotedAnswer SysCall.Answer Note)) : Prop :=
  Program.Run (Program.Kernel.noted (serve host)) (KeepsQueue host skips)
    (parties.start fun _ _ => false) tr c ∧
    ∃ procs, Program.Run (Program.Kernel.noted (serve host)) Program.anyCall (parties.start skips)
      (Program.kept (keeps skips) tr) ⟨c.world,procs⟩

/-- Some `destroy` calls of a run are local exactly if none of them finds a queue that it may
remove. -/
theorem run_local (host : Host ι) (parties : Parties ι) (skips : ι → ℕ → Bool) (tr : List (Event ι))
    (c : Program.Config (Option ι) QueueWorld (SysCall ⊕ Note)
      (Program.NotedAnswer SysCall.Answer Note)) :
    Local host parties skips tr c ↔
      Program.Run (Program.Kernel.noted (serve host)) (NothingToRemove host skips)
        (parties.start fun _ _ => false) tr c := by
  constructor
  · rintro ⟨hkeeps,-⟩
    exact hkeeps.weaken_of_serve fun _ _ _ _ hserve h => (keepsQueue_iff hserve).mp h
  · intro hnothing
    refine ⟨hnothing.weaken_of_serve fun _ _ _ _ hserve h => (keepsQueue_iff hserve).mpr h,?_⟩
    have hstart (p : Option ι) :
      RelatedParties parties skips [] p ((parties.start fun _ _ => false).procs p)
        ((parties.start skips).procs p) := by
      cases p with
      | none => exact rfl
      | some i => exact clientProcess_related _ _ _ _ i
    obtain ⟨procs,hrest,-⟩ := hnothing.drop (related_dropping host parties skips) hstart
    exact ⟨procs,hrest⟩

def sampleParties : Parties Bool where
  name := ['q']
  srv := ⟨0,0,3088,0,fun _ => ⟨0,⟨0,0⟩,0,0⟩,Registry.empty.put 0 ⟨3000,136⟩⟩
  serverScript _ := .recv (some [0]) 1 0
  clients _ := ⟨⟨0,0,0,0⟩,2000,Registry.empty.put 0 ⟨2000,72⟩⟩
  scripts i _ := if i then .destroy else .send (some [1]) 1

def sampleHost : Host Bool := ⟨fun i => if i then 100 else 200,fun _ => 7,fun _ _ => true⟩

def attachSchedule (p : Option Bool) : List (Event Bool) :=
  [⟨p,.inl (.stat messageQueuePath),.ok ()⟩,⟨p,.inl (.access (keyPath ['q'])),.ok ()⟩,
    ⟨p,.inl (.ftok (keyPath ['q']) 1),.ok 7⟩,⟨p,.inl (.msgget 7 511),.ok 5⟩]

/-- The server makes the queue and two clients find it; the queue is gone after one of them was
destroyed, and the request of the other one fails. -/
def removedSchedule : List (Event Bool) :=
  [⟨none,.inl (.stat messageQueuePath),.ok ()⟩,⟨none,.inl (.access (keyPath ['q'])),.ok ()⟩,
    ⟨none,.inl (.ftok (keyPath ['q']) 1),.ok 7⟩,⟨none,.inl (.msgget 7 511),.error .ENOENT⟩,
    ⟨none,.inl (.msgget 7 1023),.ok 5⟩,⟨none,.inl (.msgctlStat 5),.ok 0⟩] ++
  attachSchedule (some true) ++ attachSchedule (some false) ++
  [⟨some true,.inr (.destroying 0),()⟩,⟨some true,.inl (.msgctlRmid 5),.ok ()⟩,
    ⟨some true,.inl (.free 2000),()⟩,⟨some true,.inr (.returned 0 0 none),()⟩,
    ⟨some false,.inl .getpid,(200 : ℤ)⟩,
      ⟨some false,.inl (.msgsnd 5 ⟨1,200,[1]⟩ false),.error (.other 22)⟩,
    ⟨some false,.inr (.returned 0 (-1) none),()⟩]

theorem run_local_fails : ¬ ∀ (host : Host Bool) (parties : Parties Bool) (skips : Bool → ℕ → Bool)
    (tr : List (Event Bool))
    (c : Program.Config (Option Bool) QueueWorld (SysCall ⊕ Note)
      (Program.NotedAnswer SysCall.Answer Note)),
    Program.Run (Program.Kernel.noted (serve host)) Program.anyCall (parties.start fun _ _ => false)
      tr c →
      Local host parties skips tr c := by
  intro h
  obtain ⟨c,hc⟩ := Option.isSome_iff_exists.mp
    (show (Program.exec (Program.Kernel.noted (serve sampleHost))
      (sampleParties.start fun _ _ => false)
      removedSchedule).isSome by decide +kernel)
  obtain ⟨-,procs,hrun⟩ := h sampleHost sampleParties (fun i _ => i) removedSchedule c
    (Program.Run.refl.exec (Program.complies_anyCall _) hc)
  -- without the `destroy` the queue is there, and `msgsnd` does not fail like this
  have hnone : (Program.worldAfter (Program.Kernel.noted (serve sampleHost))
    ⟨fun _ => none,fun _ => none⟩
      (Program.kept (keeps fun i _ => i) removedSchedule)).isNone = true := by decide +kernel
  have hsome := hrun.world_eq
  rw [show (sampleParties.start fun i _ => i).world = ⟨fun _ => none,fun _ => none⟩ from rfl] at hsome
  rw [hsome] at hnone
  exact absurd hnone (by simp)

end SharedQueue
end MsgQ
end LixRtos
