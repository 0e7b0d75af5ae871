import LixRtos.MsgQEventQueues

/-! Runs of one server and its event clients. In a run in which registrations find their queue empty
and no event reaches a client that waits for its response, handlers get exactly the events, in the
order in which the server sent them; a run that breaks this shows that the condition is needed. -/
namespace LixRtos
namespace MsgQ

abbrev Exchange := Program.Exchange SysCall SysCall.Answer

def event? : Exchange → Option (ℤ × Message)
  | ⟨.msgrcv q _ _ _,.ok m⟩ => if isEvent m then some (q,m) else none
  | _ => none

def handled? : Exchange → Option Bytes
  | ⟨.handler _ data,_⟩ => some data
  | _ => none

/-- The last call, if it took an event, and the buffers passed to the handler, each with the queue
of the event that the call before took. -/
def observe (s : Option (ℤ × Message) × List (Option ℤ × Bytes)) (e : Exchange) :
    Option (ℤ × Message) × List (Option ℤ × Bytes) :=
  (event? e,match handled? e with
    | some data => s.2 ++ [(s.1.map Prod.fst,data)]
    | none => s.2)

/-- The buffers of events from the queue `q` that were passed to the handler. -/
def handledFrom (q : ℤ) (calls : List Exchange) : List Bytes :=
  ((calls.foldl observe (none,[])).2.filter (·.1 = some q)).map Prod.snd

/-- The handler is called right after an event was taken, with this event, and at no other time. -/
def Exact (calls : List Exchange) : Prop :=
  ∀ before e after, calls = before ++ e :: after →
    handled? e = (before.getLast?.bind event?).map fun m => pkgData m.2

def takenFrom (q : ℤ) (calls : List Exchange) : List Message :=
  ((calls.filterMap event?).filter (·.1 = q)).map Prod.snd

def ClientPhase.owes : ClientPhase → Option (ℤ × Message)
  | .handling q m => some (q,m)
  | _ => none

structure ClientInv (calls : List Exchange) (p : ClientPhase) : Prop where
  exact : Exact calls
  last : calls.getLast?.bind event? = p.owes
  handled : ∀ q, handledFrom q calls ++ (p.owes.toList.filter (·.1 = q)).map (fun m => pkgData m.2) =
    (takenFrom q calls).map pkgData

theorem observe_fst (calls : List Exchange) :
    (calls.foldl observe (none,[])).1 = calls.getLast?.bind event? := by
  rcases List.eq_nil_or_concat' calls with rfl | ⟨before,e,rfl⟩
  · rfl
  · simp [List.foldl_append,observe]

theorem handledFrom_snoc (q : ℤ) (calls : List Exchange) (e : Exchange) :
    handledFrom q (calls ++ [e]) = handledFrom q calls ++
      match handled? e with
      | some data => if (calls.getLast?.bind event?).map Prod.fst = some q then [data] else []
      | none => [] := by
  rw [handledFrom,List.foldl_append,List.foldl_cons,List.foldl_nil,observe,observe_fst]
  cases handled? e with
  | none => simp [handledFrom]
  | some data =>
    generalize calls.getLast?.bind event? = prev
    by_cases hq : prev.map Prod.fst = some q <;> simp [handledFrom,List.filter_append,hq]

theorem takenFrom_snoc (q : ℤ) (calls : List Exchange) (e : Exchange) :
    takenFrom q (calls ++ [e]) =
      takenFrom q calls ++ ((event? e).toList.filter (·.1 = q)).map Prod.snd := by
  rw [takenFrom,List.filterMap_append,List.filter_append,List.map_append]
  cases h : event? e <;> simp [takenFrom,h]

theorem ClientInv.snoc {calls : List Exchange} {p p' : ClientPhase} (h : ClientInv calls p)
    {e : Exchange}
    (hhandled : handled? e = p.owes.map fun m => pkgData m.2) (hevent : event? e = p'.owes) :
    ClientInv (calls ++ [e]) p' := by
  refine ⟨?_,by simpa using hevent,fun q => ?_⟩
  · intro before e' after hcalls
    rcases List.eq_nil_or_concat' after with rfl | ⟨after,e'',rfl⟩
    · obtain ⟨rfl,he⟩ := List.append_inj' hcalls rfl
      rw [← List.head_eq_of_cons_eq he,hhandled,h.last]
    · rw [← List.cons_append,← List.append_assoc] at hcalls
      exact h.exact before e' after (List.append_inj' hcalls rfl).1
  · have hq := h.handled q
    rw [handledFrom_snoc,takenFrom_snoc,List.map_append,← hq,hevent,hhandled,h.last]
    cases hp : p.owes with
    | none => simp
    | some m => by_cases hm : m.1 = q <;> simp [hm]

abbrev Step (ι : Type) := Program.Event (Option ι) SysCall SysCall.Answer

variable {ι : Type}

def registers : Step ι → Option ℤ
  | ⟨some _,.msgsnd _ pkg _,.ok _⟩ => some pkg.xid
  | _ => none

/-- The queue and the message that a call of the server sends. -/
def serverSent : Step ι → Option (ℤ × Message)
  | ⟨none,.msgsnd q pkg _,.ok _⟩ => some (q,pkg)
  | _ => none

/-- The queues whose registration was sent and whose response was not. -/
def awaitingNext (aw : ℤ → Bool) (e : Step ι) : ℤ → Bool :=
  match registers e,serverSent e with
  | some q,_ => Function.update aw q true
  | none,some (q,m) => if isEvent m then aw else Function.update aw q false
  | none,none => aw

def awaiting (tr : List (Step ι)) : ℤ → Bool := tr.foldl awaitingNext fun _ => false

def putEvent (q : ℤ) (e : Step ι) : Option Message :=
  match serverSent e with
  | some (q',m) => if q' = q ∧ isEvent m then some m else none
  | none => none

def eventsPut (q : ℤ) (tr : List (Step ι)) : List Message := tr.filterMap (putEvent q)

def callsOf [DecidableEq ι] (i : ι) (tr : List (Step ι)) : List Exchange :=
  (tr.filter fun e => e.pid = some i).map fun e => ⟨e.call,e.answer⟩

/-- A registration is sent while the queue of the client is empty; an event goes to the queue of a
client that does not wait for the response to its registration. -/
def Calm (srvQ : ℤ) (w : EventWorld) (tr : List (Step ι)) (e : Step ι) : Prop :=
  (∀ q ∈ registers e, w.queue q = some []) ∧
    ∀ s ∈ serverSent e, isEvent s.2 → s.1 ≠ srvQ ∧ awaiting tr s.1 = false

instance (srvQ : ℤ) (w : EventWorld) (tr : List (Step ι)) (e : Step ι) :
    Decidable (Calm srvQ w tr e) :=
  instDecidableAnd

variable {owner : ℤ → Option ι} {keyOf : Path → ℤ} {srvQ srvPid : ℤ} {w w' : EventWorld}
  {ph : ι → ClientPhase} {pending : Option ℤ} {put : ℤ → List Message} {taken : ι → ℤ → List Message}
  {i : ι} {tr : List (Step ι)}

theorem awaiting_snoc (tr : List (Step ι)) (e : Step ι) :
    awaiting (tr ++ [e]) = awaitingNext (awaiting tr) e := by
  simp [awaiting]

theorem serverSent_client (c : SysCall) (r : c.Answer) :
    serverSent (⟨some i,c,r⟩ : Step ι) = none := rfl

theorem awaitingNext_sent (aw : ℤ → Bool) (q : ℤ) (m : Message) (nowait : Bool) (u : Unit) :
    awaitingNext aw (⟨none,.msgsnd q m nowait,.ok u⟩ : Step ι) =
      if isEvent m then aw else Function.update aw q false := rfl

theorem putEvent_sent (q q' : ℤ) (m : Message) (nowait : Bool) (u : Unit) :
    putEvent q' (⟨none,.msgsnd q m nowait,.ok u⟩ : Step ι) =
      if q = q' ∧ isEvent m then some m else none := rfl

def takenNext [DecidableEq ι] (taken : ι → ℤ → List Message) (i : ι) (e : Exchange) :
    ι → ℤ → List Message :=
  Function.update taken i fun q => taken i q ++ ((event? e).toList.filter (·.1 = q)).map Prod.snd

theorem takenNext_none [DecidableEq ι] {e : Exchange} (h : event? e = none) :
    takenNext taken i e = taken := by
  simp [takenNext,h]

theorem takenNext_some [DecidableEq ι] {e : Exchange} {q : ℤ} {m : Message}
    (h : event? e = some (q,m)) :
    takenNext taken i e = Function.update taken i
      (Function.update (taken i) q (taken i q ++ [m])) := by
  rw [takenNext,h]
  congr 1
  funext q'
  by_cases hq : q' = q
  · subst hq
    simp
  · simp [hq,Ne.symm hq]

/-- What a call of the client `i`, which leaves it in the phase `p`, does. -/
structure Moved [DecidableEq ι] (owner : ℤ → Option ι) (srvQ srvPid : ℤ) (w : EventWorld)
    (ph : ι → ClientPhase) (pending : Option ℤ) (aw : ℤ → Bool) (put : ℤ → List Message)
    (taken : ι → ℤ → List Message) (i : ι) (p : ClientPhase) (e : Exchange) : Prop where
  handled : handled? e = (ph i).owes.map fun m => pkgData m.2
  event : event? e = p.owes
  inv : EventInv owner srvQ srvPid w (Function.update ph i p) pending aw put (takenNext taken i e)

theorem Moved.idle [DecidableEq ι] {aw : ℤ → Bool} {p : ClientPhase} {e : Exchange}
    (h : EventInv owner srvQ srvPid w ph pending aw put taken) (hnext : p = ph i)
    (howes : (ph i).owes = none) (hhandled : handled? e = none) (hevent : event? e = none) :
    Moved owner srvQ srvPid w ph pending aw put taken i p e := by
  refine ⟨by rw [howes,hhandled]; rfl,by rw [hnext,howes,hevent],?_⟩
  rw [takenNext_none hevent,hnext,Function.update_eq_self]
  exact h

/-- A call of the client `i` has an allowed answer, keeps the heap and moves the client. -/
def ClientStep [DecidableEq ι] (owner : ℤ → Option ι) (keyOf : Path → ℤ) (srvQ srvPid : ℤ)
    (w w' : EventWorld)
    (ph : ι → ClientPhase) (pending : Option ℤ) (aw : ℤ → Bool) (put : ℤ → List Message)
    (taken : ι → ℤ → List Message) (i : ι) (c : SysCall) (r : c.Answer) : Prop :=
  (listens keyOf (fun key => owner key = some i) srvQ).answers (ph i) c r ∧ w'.heap = w.heap ∧
    Moved owner srvQ srvPid w' ph pending (awaitingNext aw ⟨some i,c,r⟩) put taken i
      ((listens keyOf (fun key => owner key = some i) srvQ).next (ph i) c r) ⟨c,r⟩

section ClientCalls

variable [DecidableEq ι] {aw : ℤ → Bool}

theorem ClientPhase.owes_none {p : ClientPhase} (h : ∀ q m, p ≠ .handling q m) : p.owes = none := by
  cases p with
  | handling q m => exact absurd rfl (h q m)
  | _ => rfl

theorem EventInv.client_handling (h : EventInv owner srvQ srvPid w ph pending aw put taken) {q : ℤ}
    {m : Message}
    (hp : ph i = .handling q m) {c : SysCall} {r : c.Answer}
    (hallows : (listens keyOf (fun key => owner key = some i) srvQ).allows (ph i) c)
    (hserve : serveEvents keyOf srvPid w (some i) c r = some w') :
    ClientStep owner keyOf srvQ srvPid w w' ph pending aw put taken i c r := by
  have hown := h.own i q (by rw [hp]; rfl)
  rw [hp] at hallows
  obtain ⟨hand,rfl⟩ := hallows
  obtain rfl := Option.some.inj hserve
  rw [ClientStep,hp]
  refine ⟨trivial,rfl,by rw [hp]; rfl,rfl,?_⟩
  rw [takenNext_none rfl]
  refine h.quiet (fun q' hq' => ?_) (by simp [hp,listens])
  obtain rfl := Option.some.inj hq'
  exact hown

theorem EventInv.client_ftok (h : EventInv owner srvQ srvPid w ph pending aw put taken)
    (howes : (ph i).owes = none) {path : Path} {id : ℤ} {r : (SysCall.ftok path id).Answer}
    (hserve : serveEvents keyOf srvPid w (some i) (.ftok path id) r = some w') :
    ClientStep owner keyOf srvQ srvPid w w' ph pending aw put taken i (.ftok path id) r := by
  have hkey : w' = w ∧ ∀ key, r = .ok key → key = keyOf path := by
    cases r with
    | error e => exact ⟨(Option.some.inj hserve).symm,fun _ hr => absurd hr (by simp)⟩
    | ok key =>
      simp only [serveEvents] at hserve
      split at hserve
      · next hkey => exact ⟨(Option.some.inj hserve).symm,fun _ hr => Except.ok.inj hr ▸ hkey⟩
      · exact absurd hserve (by simp)
  obtain ⟨rfl,hkey⟩ := hkey
  refine ⟨?_,rfl,Moved.idle h ?_ howes rfl rfl⟩
  · cases r with
    | error e => cases ph i <;> trivial
    | ok key => cases ph i <;> exact hkey key rfl
  · cases ph i <;> rfl

theorem EventInv.client_msgget (h : EventInv owner srvQ srvPid w ph pending aw put taken)
    (hhandling : ∀ q m, ph i ≠ .handling q m) {key : ℤ} {flag : ℕ}
    {r : (SysCall.msgget key flag).Answer}
    (hallows : (listens keyOf (fun key => owner key = some i) srvQ).allows (ph i) (.msgget key flag))
    (hserve : serveEvents keyOf srvPid w (some i) (.msgget key flag) r = some w') :
    ClientStep owner keyOf srvQ srvPid w w' ph pending aw put taken i (.msgget key flag) r := by
  have howes := ClientPhase.owes_none hhandling
  have hmine : (ph i).Unbound ∧ owner key = some i := by
    cases hp : ph i with
    | handling q m => exact absurd hp (hhandling q m)
    | _ => rw [hp] at hallows; exact hallows
  obtain ⟨hunbound,howner⟩ := hmine
  cases r with
  | error e =>
    obtain rfl := Option.some.inj hserve
    refine ⟨by cases ph i <;> trivial,rfl,Moved.idle h ?_ howes rfl rfl⟩
    cases ph i <;> rfl
  | ok q =>
    have hnext : (listens keyOf (fun key => owner key = some i) srvQ).next (ph i) (.msgget key flag)
      (.ok q) =
        .opened q := by
      cases hp : ph i with
      | handling q m => exact absurd hp (hhandling q m)
      | _ => rfl
    have hanswers (hq : 0 ≤ q) : (listens keyOf (fun key => owner key = some i) srvQ).answers (ph i)
        (.msgget key flag) (.ok q) := by
      cases hp : ph i <;> exact hq
    have hhandled : handled? ⟨.msgget key flag,.ok q⟩ = (ph i).owes.map fun m => pkgData m.2 := by
      rw [howes]
      rfl
    rw [ClientStep,hnext]
    simp only [serveEvents] at hserve
    split at hserve
    · next q' hids =>
      split at hserve
      · next hq =>
        subst hq
        obtain rfl := Option.some.inj hserve
        have hmade := h.found key q' hids
        refine ⟨hanswers (h.range q' key hmade).1,rfl,hhandled,rfl,?_⟩
        rw [takenNext_none rfl]
        refine h.quiet (fun q hq => ?_) fun q _ _ => ⟨fun hp => ?_,by simp⟩
        · obtain rfl := Option.some.inj hq
          rw [ownerOf,hmade]
          exact howner
        · rw [hp] at hunbound
          exact hunbound
      · exact absurd hserve (by simp)
    · split at hserve
      · next hnew =>
        obtain rfl := Option.some.inj hserve
        refine ⟨hanswers hnew.2.2.1,rfl,hhandled,rfl,?_⟩
        rw [takenNext_none rfl]
        exact h.make hnew.2.1 hnew.2.2 howner hunbound
      · exact absurd hserve (by simp)

theorem EventInv.client_msgsnd (h : EventInv owner srvQ srvPid w ph pending aw put taken)
    (hhandling : ∀ q m, ph i ≠ .handling q m) {qid : ℤ} {pkg : Message} {nowait : Bool}
    {r : (SysCall.msgsnd qid pkg nowait).Answer}
    (hallows : (listens keyOf (fun key => owner key = some i) srvQ).allows (ph i)
      (.msgsnd qid pkg nowait))
    (hserve : serveEvents keyOf srvPid w (some i) (.msgsnd qid pkg nowait) r = some w')
    (hcalm : ∀ q ∈ registers (⟨some i,.msgsnd qid pkg nowait,r⟩ : Step ι), w.queue q = some []) :
    ClientStep owner keyOf srvQ srvPid w w' ph pending aw put taken i (.msgsnd qid pkg nowait) r := by
  obtain ⟨q,hp⟩ : ∃ q, ph i = .opened q := by
    cases hp : ph i with
    | opened q => exact ⟨q,rfl⟩
    | handling q m => exact absurd hp (hhandling q m)
    | _ => rw [hp] at hallows; exact hallows.elim
  rw [hp] at hallows
  obtain ⟨rfl,rfl⟩ := hallows
  cases r with
  | error e =>
    have hw : w' = w := by
      simp only [serveEvents] at hserve
      split at hserve
      · exact absurd hserve (by simp)
      · exact (Option.some.inj hserve).symm
    subst hw
    refine ⟨by rw [hp]; trivial,rfl,Moved.idle h ?_ (ClientPhase.owes_none hhandling) rfl rfl⟩
    rw [hp]
    rfl
  | ok u =>
    simp only [serveEvents] at hserve
    split at hserve
    · next l hl =>
      obtain rfl := Option.some.inj hserve
      refine ⟨by rw [hp]; trivial,rfl,by rw [hp]; rfl,by rw [hp]; rfl,?_⟩
      rw [takenNext_none rfl,hp]
      exact h.register hp (hcalm _ rfl) hl rfl
    · exact absurd hserve (by simp)

theorem EventInv.client_msgrcv (hpid : 0 < srvPid ∧ srvPid < 2^31)
    (h : EventInv owner srvQ srvPid w ph pending aw put taken)
    (hhandling : ∀ q m, ph i ≠ .handling q m)
    {q t : ℤ} {limit : ℕ} {nowait : Bool} {r : (SysCall.msgrcv q limit t nowait).Answer}
    (hallows : (listens keyOf (fun key => owner key = some i) srvQ).allows (ph i)
      (.msgrcv q limit t nowait))
    (hserve : serveEvents keyOf srvPid w (some i) (.msgrcv q limit t nowait) r = some w') :
    ClientStep owner keyOf srvQ srvPid w w' ph pending aw put taken i (.msgrcv q limit t nowait)
      r := by
  have hphase : (ph i = .waiting q ∨ ph i = .listening q) ∧ t = messageQueueAnyMessage := by
    cases hp : ph i with
    | waiting q' => rw [hp] at hallows; exact ⟨Or.inl (hallows.1 ▸ rfl),hallows.2⟩
    | listening q' => rw [hp] at hallows; exact ⟨Or.inr (hallows.1 ▸ rfl),hallows.2⟩
    | handling q' m => exact absurd hp (hhandling q' m)
    | _ => rw [hp] at hallows; exact hallows.elim
  obtain ⟨hphase,rfl⟩ := hphase
  cases r with
  | error e =>
    have howes := ClientPhase.owes_none hhandling
    obtain rfl := Option.some.inj hserve
    rcases hphase with hp | hp <;>
      exact ⟨by rw [hp]; trivial,rfl,Moved.idle h (by rw [hp]; rfl) howes rfl rfl⟩
  | ok m =>
    obtain ⟨_,l,hl,hreceive,rfl⟩ := serveEvents_receives hserve
    obtain rfl := MessageQueue.receive_any hreceive
    rcases hphase with hp | hp
    · obtain ⟨hresp,hinv⟩ := h.response hp hl hpid.1.ne'
      have hevent : event? ⟨.msgrcv q limit messageQueueAnyMessage nowait,.ok m⟩ = none := by
        simp [event?,isEvent,hresp,hpid.1.ne']
      refine ⟨?_,rfl,by rw [hp]; rfl,by rw [hp]; exact hevent,?_⟩
      · rw [hp]
        change toInt m.xid ≠ 0
        rw [hresp,toInt_eq (by omega) hpid.2]
        exact hpid.1.ne'
      · rw [takenNext_none hevent,hp]
        exact hinv
    · obtain ⟨hm,hinv⟩ := h.take hp hl
      have hevent : event? ⟨.msgrcv q limit messageQueueAnyMessage nowait,.ok m⟩ = some (q,m) := by
        simp [event?,hm]
      refine ⟨by rw [hp]; trivial,rfl,by rw [hp]; rfl,by rw [hp]; exact hevent,?_⟩
      rw [takenNext_some hevent,hp]
      exact hinv

theorem EventInv.client_msgctlRmid (h : EventInv owner srvQ srvPid w ph pending aw put taken)
    (hhandling : ∀ q m, ph i ≠ .handling q m) {q : ℤ} {r : (SysCall.msgctlRmid q).Answer}
    (hallows : (listens keyOf (fun key => owner key = some i) srvQ).allows (ph i) (.msgctlRmid q))
    (hserve : serveEvents keyOf srvPid w (some i) (.msgctlRmid q) r = some w') :
    ClientStep owner keyOf srvQ srvPid w w' ph pending aw put taken i (.msgctlRmid q) r := by
  have heid : (ph i).eid? = some q := by
    cases hp : ph i with
    | opened q' => rw [hp] at hallows; exact congrArg some hallows.symm
    | waiting q' => rw [hp] at hallows; exact congrArg some hallows.symm
    | handling q' m => exact absurd hp (hhandling q' m)
    | _ => rw [hp] at hallows; exact hallows.elim
  have hnext : (listens keyOf (fun key => owner key = some i) srvQ).next (ph i) (.msgctlRmid q) r =
      .off := by
    cases hp : ph i with
    | handling q m => exact absurd hp (hhandling q m)
    | _ => rfl
  have hanswers : (listens keyOf (fun key => owner key = some i) srvQ).answers (ph i)
      (.msgctlRmid q) r := by
    cases ph i <;> trivial
  have hhandled : handled? ⟨.msgctlRmid q,r⟩ = (ph i).owes.map fun m => pkgData m.2 := by
    rw [ClientPhase.owes_none hhandling]
    rfl
  rw [ClientStep,hnext]
  cases r with
  | ok u =>
    simp only [serveEvents] at hserve
    split at hserve
    · next hexists =>
      obtain rfl := Option.some.inj hserve
      refine ⟨hanswers,rfl,hhandled,rfl,?_⟩
      rw [takenNext_none rfl]
      exact h.remove heid hexists
    · exact absurd hserve (by simp)
  | error e =>
    simp only [serveEvents] at hserve
    split at hserve
    · exact absurd hserve (by simp)
    · next hgone =>
      obtain rfl := Option.some.inj hserve
      refine ⟨hanswers,rfl,hhandled,rfl,?_⟩
      rw [takenNext_none rfl]
      refine h.quiet (fun _ hq => absurd hq (by simp [ClientPhase.eid?])) fun q' l hl =>
        ⟨fun hp => ?_,by simp⟩
      rw [hp] at heid
      obtain rfl := Option.some.inj heid
      exact hgone (by rw [hl]; rfl)

/-- A call of a client keeps the invariant; it is the handler exactly when an event was taken. -/
theorem EventInv.client_step (hpid : 0 < srvPid ∧ srvPid < 2^31)
    (h : EventInv owner srvQ srvPid w ph pending (awaiting tr) put taken) {c : SysCall} {r : c.Answer}
    (hallows : (listens keyOf (fun key => owner key = some i) srvQ).allows (ph i) c)
    (hserve : serveEvents keyOf srvPid w (some i) c r = some w')
    (hcalm : Calm srvQ w tr ⟨some i,c,r⟩) :
    ClientStep owner keyOf srvQ srvPid w w' ph pending (awaiting tr) put taken i c r := by
  by_cases hhandling : ∃ q m, ph i = .handling q m
  · obtain ⟨q,m,hp⟩ := hhandling
    exact h.client_handling hp hallows hserve
  have hbusy (q : ℤ) (m : Message) : ph i ≠ .handling q m := fun hp => hhandling ⟨q,m,hp⟩
  have howes := ClientPhase.owes_none hbusy
  cases c with
  | ftok path id => exact h.client_ftok howes hserve
  | msgget key flag => exact h.client_msgget hbusy hallows hserve
  | msgsnd qid pkg nowait => exact h.client_msgsnd hbusy hallows hserve hcalm.1
  | msgrcv q limit t nowait => exact h.client_msgrcv hpid hbusy hallows hserve
  | msgctlRmid q => exact h.client_msgctlRmid hbusy hallows hserve
  | handler hand data =>
    cases hp : ph i with
    | handling q m => exact absurd hp (hbusy q m)
    | _ => rw [hp] at hallows; exact hallows.elim
  | _ =>
    obtain rfl := Option.some.inj hserve
    refine ⟨by cases ph i <;> trivial,rfl,Moved.idle h ?_ howes rfl rfl⟩
    cases ph i <;> rfl

end ClientCalls

/-- A call of the server has an allowed answer and keeps the invariant and the heap. -/
def ServerStep (owner : ℤ → Option ι) (srvQ srvPid : ℤ) (w' : EventWorld) (ph : ι → ClientPhase)
    (s : List ℕ × Option ℤ) (aw : ℤ → Bool) (put : ℤ → List Message) (taken : ι → ℤ → List Message)
    (c : SysCall) (r : c.Answer) : Prop :=
  (MsgQSrv.serverSide True srvQ srvPid MsgQSrv.IsQueueId).answers s c r ∧
    w'.heap = ((MsgQSrv.serverSide True srvQ srvPid MsgQSrv.IsQueueId).next s c r).1 ∧
    EventInv owner srvQ srvPid w' ph
      ((MsgQSrv.serverSide True srvQ srvPid MsgQSrv.IsQueueId).next s c r).2
      (awaitingNext aw (⟨none,c,r⟩ : Step ι))
      (fun q => put q ++ (putEvent q (⟨none,c,r⟩ : Step ι)).toList) taken

section ServerCalls

variable {s : List ℕ × Option ℤ} {aw : ℤ → Bool}

theorem put_none {e : Step ι} (h : ∀ q, putEvent q e = none) :
    (fun q => put q ++ (putEvent q e).toList) = put := by
  funext q
  simp [h]

theorem EventInv.server_event (h : EventInv owner srvQ srvPid w ph s.2 aw put taken)
    (hheap : w.heap = s.1)
    {q : ℤ} {pkg : Message} {nowait : Bool} {u : Unit} {l : List Message} (hl : w.queue q = some l)
    (hm : isEvent pkg) (hq : q ≠ srvQ) (haw : aw q = false) :
    ServerStep owner srvQ srvPid (w.setQueue q (some (l ++ [pkg]))) ph s aw put taken
      (.msgsnd q pkg nowait)
      (.ok u) := by
  have hzero : pkg.xid = 0 := by simpa [isEvent] using hm
  have hnext : (MsgQSrv.serverSide True srvQ srvPid MsgQSrv.IsQueueId).next s (.msgsnd q pkg nowait)
      (.ok u) = s := by
    simp [MsgQSrv.serverSide,Program.Protocol.both,MsgQSrv.serving,libc,hzero]
  have hputs : (fun q' => put q' ++
    (putEvent q' (⟨none,.msgsnd q pkg nowait,.ok u⟩ : Step ι)).toList) =
      Function.update put q (put q ++ [pkg]) := by
    funext q'
    by_cases hq' : q' = q
    · subst hq'
      simp [putEvent_sent,hm]
    · simp [putEvent_sent,hq',Ne.symm hq']
  refine ⟨⟨trivial,by cases nowait <;> trivial⟩,hheap,?_⟩
  rw [hnext,hputs,awaitingNext_sent,if_pos hm]
  exact h.event hq hl haw hm

theorem EventInv.server_respond (hpid : 0 < srvPid)
    (h : EventInv owner srvQ srvPid w ph s.2 aw put taken)
    (hheap : w.heap = s.1) {q : ℤ} {pkg : Message} {nowait : Bool} {u : Unit} {l : List Message}
    (hl : w.queue q = some l) (hm : ¬ isEvent pkg)
    (hallows : (MsgQSrv.serverSide True srvQ srvPid MsgQSrv.IsQueueId).allows s
      (.msgsnd q pkg nowait)) :
    ServerStep owner srvQ srvPid (w.setQueue q (some (l ++ [pkg]))) ph s aw put taken
      (.msgsnd q pkg nowait)
      (.ok u) := by
  have hxid : pkg.xid ≠ 0 := by simpa [isEvent] using hm
  obtain hzero | ⟨hpending,hresp,_⟩ := hallows.2
  · exact absurd hzero hxid
  have hnext : (MsgQSrv.serverSide True srvQ srvPid MsgQSrv.IsQueueId).next s (.msgsnd q pkg nowait)
    (.ok u) =
      (s.1,none) := by
    simp [MsgQSrv.serverSide,Program.Protocol.both,MsgQSrv.serving,libc,hxid]
  have hq : q ≠ srvQ := by
    rintro rfl
    have hnamed := h.named q hpending
    rw [h.server] at hnamed
    exact absurd hnamed (by simp)
  refine ⟨⟨trivial,by cases nowait <;> trivial⟩,hheap,?_⟩
  rw [put_none fun q' => by simp [putEvent_sent,hm],hnext,awaitingNext_sent,if_neg hm]
  rw [hpending] at h
  exact h.respond hq hl hresp hpid.ne'

theorem EventInv.server_msgsnd (hpid : 0 < srvPid)
    (h : EventInv owner srvQ srvPid w ph s.2 (awaiting tr) put taken)
    (hheap : w.heap = s.1) {q : ℤ} {pkg : Message} {nowait : Bool}
    {r : (SysCall.msgsnd q pkg nowait).Answer}
    (hallows : (MsgQSrv.serverSide True srvQ srvPid MsgQSrv.IsQueueId).allows s (.msgsnd q pkg nowait))
    (hserve : serveEvents keyOf srvPid w (none : Option ι) (.msgsnd q pkg nowait) r = some w')
    (hcalm : Calm srvQ w tr ⟨none,.msgsnd q pkg nowait,r⟩) :
    ServerStep owner srvQ srvPid w' ph s (awaiting tr) put taken (.msgsnd q pkg nowait) r := by
  cases r with
  | error e =>
    simp only [serveEvents] at hserve
    split at hserve
    · exact absurd hserve (by simp)
    · next hfull =>
      obtain rfl := Option.some.inj hserve
      rw [ServerStep,put_none fun _ => rfl]
      refine ⟨⟨trivial,?_⟩,hheap,h⟩
      cases nowait with
      | false => exact fun he => hfull ⟨he,rfl⟩
      | true => trivial
  | ok u =>
    simp only [serveEvents] at hserve
    split at hserve
    · next l hl =>
      obtain rfl := Option.some.inj hserve
      by_cases hm : isEvent pkg
      · obtain ⟨hq,haw⟩ := hcalm.2 _ rfl hm
        exact h.server_event hheap hl hm hq haw
      · exact h.server_respond hpid hheap hl hm hallows
    · exact absurd hserve (by simp)

theorem EventInv.server_msgrcv (h : EventInv owner srvQ srvPid w ph s.2 aw put taken)
    (hheap : w.heap = s.1)
    {q t : ℤ} {limit : ℕ} {nowait : Bool} {r : (SysCall.msgrcv q limit t nowait).Answer}
    (hallows : (MsgQSrv.serverSide True srvQ srvPid MsgQSrv.IsQueueId).allows s
      (.msgrcv q limit t nowait))
    (hserve : serveEvents keyOf srvPid w (none : Option ι) (.msgrcv q limit t nowait) r = some w') :
    ServerStep owner srvQ srvPid w' ph s aw put taken (.msgrcv q limit t nowait) r := by
  obtain ⟨rfl,rfl⟩ := hallows.2
  rw [ServerStep,put_none fun _ => rfl]
  cases r with
  | error e =>
    obtain rfl := Option.some.inj hserve
    exact ⟨⟨trivial,trivial⟩,hheap,h⟩
  | ok m =>
    obtain ⟨_,_,hl,hreceive,rfl⟩ := serveEvents_receives hserve
    obtain ⟨ys,zs,rfl,rfl,_⟩ := MessageQueue.receive_eq hreceive
    obtain ⟨hgood,hinv⟩ := h.dequeue hl
    exact ⟨⟨trivial,hgood⟩,hheap,hinv⟩

theorem EventInv.server_malloc (h : EventInv owner srvQ srvPid w ph s.2 aw put taken)
    (hheap : w.heap = s.1)
    {size p : ℕ} (hserve : serveEvents keyOf srvPid w (none : Option ι) (.malloc size) p = some w') :
    ServerStep owner srvQ srvPid w' ph s aw put taken (.malloc size) p := by
  rw [ServerStep,put_none fun _ => rfl]
  simp only [serveEvents] at hserve
  split at hserve
  · next hp =>
    obtain rfl := Option.some.inj hserve
    exact ⟨⟨Or.inl ⟨hp,trivial⟩,trivial⟩,hheap.trans (if_pos hp).symm,h⟩
  · next hp =>
    split at hserve
    · exact absurd hserve (by simp)
    · next hfresh =>
      obtain rfl := Option.some.inj hserve
      refine ⟨⟨Or.inr ⟨hp,hheap ▸ hfresh⟩,trivial⟩,?_,h.heap _⟩
      rw [hheap]
      exact (if_neg hp).symm

theorem EventInv.server_step (hpid : 0 < srvPid)
    (h : EventInv owner srvQ srvPid w ph s.2 (awaiting tr) put taken)
    (hheap : w.heap = s.1) {c : SysCall} {r : c.Answer}
    (hallows : (MsgQSrv.serverSide True srvQ srvPid MsgQSrv.IsQueueId).allows s c)
    (hserve : serveEvents keyOf srvPid w (none : Option ι) c r = some w')
    (hcalm : Calm srvQ w tr ⟨none,c,r⟩) :
    ServerStep owner srvQ srvPid w' ph s (awaiting tr) put taken c r := by
  cases c with
  | msgsnd q pkg nowait => exact h.server_msgsnd hpid hheap hallows hserve hcalm
  | msgrcv q limit t nowait => exact h.server_msgrcv hheap hallows hserve
  | malloc size => exact h.server_malloc hheap hserve
  | free p =>
    obtain rfl := Option.some.inj hserve
    rw [ServerStep,put_none fun _ => rfl]
    exact ⟨⟨trivial,trivial⟩,congrArg (·.erase p) hheap,h.heap _⟩
  | getpid =>
    rw [ServerStep,put_none fun _ => rfl]
    simp only [serveEvents] at hserve
    split at hserve
    · next hp =>
      obtain rfl := Option.some.inj hserve
      exact ⟨⟨trivial,hp⟩,hheap,h⟩
    · exact absurd hserve (by simp)
  | ftok path id =>
    have hw : w' = w := by
      cases r with
      | error e => exact (Option.some.inj hserve).symm
      | ok key =>
        simp only [serveEvents] at hserve
        split at hserve
        · exact (Option.some.inj hserve).symm
        · exact absurd hserve (by simp)
    subst hw
    rw [ServerStep,put_none fun _ => rfl]
    exact ⟨⟨trivial,trivial⟩,hheap,h⟩
  | msgget key flag => exact hallows.2.elim
  | msgctlRmid q => exact hallows.2.elim
  | handler hand data => exact hallows.2.elim
  | _ =>
    obtain rfl := Option.some.inj hserve
    rw [ServerStep,put_none fun _ => rfl]
    exact ⟨⟨trivial,trivial⟩,hheap,h⟩

end ServerCalls

/-- A server with its queue and without event clients, and clients that have not registered. Each
client has keys of its own. -/
structure EventSystem (ι : Type) where
  keyOf : Path → ℤ
  owner : ℤ → Option ι
  srvKey : ℤ
  srvPid : ℤ
  srv : MsgQSrv
  heap : List ℕ
  script : ℕ → ServerEventCall
  clients : ι → MsgQClt
  scripts : ι → ℕ → EventCall
  serverKey : owner srvKey = none
  ownKeys : ∀ i n k hand, scripts i n = .request (some k) hand →
    owner (keyOf (keyPath (MsgQClt.eventName k))) = some i
  pid : 0 < srvPid ∧ srvPid < 2^31
  queue : MsgQSrv.IsQueueId srv.qid
  ringed : MsgQSrv.Ringed srv.head srv.qid MsgQSrv.IsQueueId srv heap heap []
  fresh : ∀ i, (clients i).srvQ = srv.qid ∧ (clients i).pid = 0 ∧ (clients i).hand = 0

namespace EventSystem

def start (S : EventSystem ι) : Program.Config (Option ι) EventWorld SysCall SysCall.Answer where
  world := {
    queue := Function.update (fun _ => none) S.srv.qid (some [])
    ids := Function.update (fun _ => none) S.srvKey (some S.srv.qid)
    made := Function.update (fun _ => none) S.srv.qid (some S.srvKey)
    heap := S.heap }
  procs
    | none => eventServerLoop S.srv S.script
    | some i => eventClientLoop (S.clients i) (S.scripts i)

abbrev State : Option ι → Type
  | none => List ℕ × Option ℤ
  | some _ => ClientPhase

def protocols (S : EventSystem ι) :
    (p : Option ι) → Program.Protocol SysCall SysCall.Answer (State p)
  | none => MsgQSrv.serverSide True S.srv.qid S.srvPid MsgQSrv.IsQueueId
  | some i => listens S.keyOf (fun key => S.owner key = some i) S.srv.qid

def states (S : EventSystem ι) : (p : Option ι) → State p
  | none => (S.heap,none)
  | some _ => .off

variable [DecidableEq ι] {S : EventSystem ι}

structure Kept (S : EventSystem ι) (w : EventWorld) (tr : List (Step ι)) : Prop where
  inv : EventInv S.owner S.srv.qid S.srvPid w (fun i => Program.after S.protocols S.states tr (some i))
    (Program.after S.protocols S.states tr none).2 (awaiting tr) (fun q => eventsPut q tr)
    fun i q => takenFrom q (callsOf i tr)
  heap : w.heap = (Program.after S.protocols S.states tr none).1
  clients : ∀ i, ClientInv (callsOf i tr) (Program.after S.protocols S.states tr (some i))

theorem kept_start (S : EventSystem ι) : Kept S S.start.world [] := by
  have howner : ownerOf S.owner S.start.world S.srv.qid = none := by
    simp [ownerOf,start,S.serverKey]
  have hmade {q key : ℤ} (hq : S.start.world.made q = some key) : q = S.srv.qid ∧ key = S.srvKey := by
    simp only [start,Function.update_apply] at hq
    split at hq
    · next h => exact ⟨h,(Option.some.inj hq).symm⟩
    · exact absurd hq (by simp)
  have hqueue {q : ℤ} {l : List Message} (hq : S.start.world.queue q = some l) : q = S.srv.qid := by
    simp only [start,Function.update_apply] at hq
    split at hq
    · assumption
    · exact absurd hq (by simp)
  have hnobody (i : ι) (q : ℤ) : ownerOf S.owner S.start.world q ≠ some i := by
    intro hq
    cases hkey : S.start.world.made q with
    | none => simp [ownerOf,hkey] at hq
    | some key =>
      rw [(hmade hkey).1,howner] at hq
      exact absurd hq (by simp)
  refine ⟨⟨?_,?_,?_,howner,?_,?_,?_,?_,fun _ _ => ⟨rfl,rfl⟩,fun _ _ _ => rfl,?_⟩,rfl,fun i =>
    ⟨?_,rfl,fun _ => rfl⟩⟩
  · intro key q hkey
    simp only [start,Function.update_apply] at hkey ⊢
    split at hkey
    · next h =>
      obtain rfl := Option.some.inj hkey
      rw [if_pos rfl,h]
    · exact absurd hkey (by simp)
  · intro q key hkey
    rw [(hmade hkey).1]
    exact S.queue
  · intro q hq
    obtain ⟨l,hl⟩ := Option.isSome_iff_exists.mp hq
    rw [hqueue hl]
    simp [start]
  · exact fun i q hq => absurd hq (by simp [states,ClientPhase.eid?])
  · exact ⟨[],by simp [start],fun m hm => absurd hm List.not_mem_nil⟩
  · exact fun q hq => absurd hq (by simp [states])
  · exact fun q l hne hl => absurd (hqueue hl) hne
  · exact fun i q hq => absurd hq (hnobody i q)
  · intro before e after hcalls
    exact absurd hcalls (by simp [callsOf])

omit [DecidableEq ι] in
theorem follows (S : EventSystem ι) (p : Option ι) :
    (S.start.procs p).Follows (S.protocols p) (S.states p) fun _ _ => True := by
  cases p with
  | none =>
    exact MsgQSrv.eventServerLoop_follows MsgQSrv.toInt_queueId S.ringed S.script
  | some i =>
    obtain ⟨hq,hpid,hhand⟩ := S.fresh i
    have hfits : Fits S.srv.qid (S.clients i) .off := ⟨hq,Or.inl ⟨hpid,hhand,trivial⟩⟩
    exact eventClientLoop_follows hfits (S.scripts i) (S.ownKeys i)

theorem callsOf_snoc (i : ι) (tr : List (Step ι)) (e : Step ι) :
    callsOf i (tr ++ [e]) = callsOf i tr ++ if e.pid = some i then [⟨e.call,e.answer⟩] else [] := by
  by_cases h : e.pid = some i <;> simp [callsOf,List.filter_append,h]

theorem kept_client {w w' : EventWorld} {tr : List (Step ι)} {i : ι} {c : SysCall} {r : c.Answer}
    (h : Kept S w tr)
    (hallows : (S.protocols (some i)).allows (Program.after S.protocols S.states tr (some i)) c)
    (hserve : serveEvents S.keyOf S.srvPid w (some i) c r = some w')
    (hcalm : Calm S.srv.qid w tr ⟨some i,c,r⟩) :
    (S.protocols (some i)).answers (Program.after S.protocols S.states tr (some i)) c r ∧
      Kept S w' (tr ++ [⟨some i,c,r⟩]) := by
  obtain ⟨hanswers,hheap,hmoved⟩ := EventInv.client_step S.pid h.inv hallows hserve hcalm
  refine ⟨hanswers,?_,?_,fun j => ?_⟩
  · have hphase : (fun j => Program.after S.protocols S.states (tr ++ [⟨some i,c,r⟩]) (some j)) =
        Function.update (fun j => Program.after S.protocols S.states tr (some j)) i
          ((S.protocols (some i)).next (Program.after S.protocols S.states tr (some i)) c r) := by
      funext j
      by_cases hj : j = i
      · subst hj
        simp
      · simp [hj]
    have htaken : (fun j q => takenFrom q (callsOf j (tr ++ [⟨some i,c,r⟩]))) =
        takenNext (fun j q => takenFrom q (callsOf j tr)) i ⟨c,r⟩ := by
      funext j q
      by_cases hj : j = i
      · subst hj
        rw [callsOf_snoc,if_pos rfl,takenFrom_snoc]
        simp [takenNext]
      · simp [takenNext,hj,callsOf_snoc,Ne.symm hj]
    have hput : (fun q => eventsPut q (tr ++ [⟨some i,c,r⟩])) = fun q => eventsPut q tr := by
      funext q
      simp [eventsPut,putEvent,serverSent_client]
    have hserver : Program.after S.protocols S.states (tr ++ [⟨some i,c,r⟩]) none =
        Program.after S.protocols S.states tr none := by simp
    rw [hphase,htaken,hput,hserver,awaiting_snoc]
    exact hmoved.inv
  · simpa [hheap] using h.heap
  · by_cases hj : j = i
    · subst hj
      rw [callsOf_snoc,if_pos rfl,Program.after_snoc,Function.update_self]
      exact (h.clients j).snoc hmoved.handled hmoved.event
    · simpa [callsOf_snoc,hj,Ne.symm hj] using h.clients j

theorem kept_server {w w' : EventWorld} {tr : List (Step ι)} {c : SysCall} {r : c.Answer}
    (h : Kept S w tr)
    (hallows : (S.protocols none).allows (Program.after S.protocols S.states tr none) c)
    (hserve : serveEvents S.keyOf S.srvPid w (none : Option ι) c r = some w')
    (hcalm : Calm S.srv.qid w tr ⟨none,c,r⟩) :
    (S.protocols none).answers (Program.after S.protocols S.states tr none) c r ∧
      Kept S w' (tr ++ [⟨none,c,r⟩]) := by
  obtain ⟨hanswers,hheap,hinv⟩ := EventInv.server_step S.pid.1 h.inv h.heap hallows hserve hcalm
  have hcalls (i : ι) : callsOf i (tr ++ [⟨none,c,r⟩]) = callsOf i tr := by simp [callsOf_snoc]
  have hphase (i : ι) : Program.after S.protocols S.states (tr ++ [⟨none,c,r⟩]) (some i) =
      Program.after S.protocols S.states tr (some i) := by simp
  have hstate : Program.after S.protocols S.states (tr ++ [⟨none,c,r⟩]) none =
      (S.protocols none).next (Program.after S.protocols S.states tr none) c r := by simp
  refine ⟨hanswers,?_,?_,fun i => ?_⟩
  · have hput : (fun q => eventsPut q (tr ++ [⟨none,c,r⟩])) =
        fun q => eventsPut q tr ++ (putEvent q (⟨none,c,r⟩ : Step ι)).toList := by
      funext q
      cases hq : putEvent q (⟨none,c,r⟩ : Step ι) <;> simp [eventsPut,hq]
    simp only [hcalls,hput,hphase,hstate,awaiting_snoc]
    exact hinv
  · rw [hstate]
    exact hheap
  · rw [hcalls,hphase]
    exact h.clients i

/-- In a run in which registrations find their queue empty and no event reaches a client that waits
for its response, each handler is called exactly with the events that the server put into the queue
of its client, in this order. -/
theorem run_events {tr : List (Step ι)}
    {c : Program.Config (Option ι) EventWorld SysCall SysCall.Answer}
    (hrun : Program.Run (serveEvents S.keyOf S.srvPid) (Calm S.srv.qid) S.start tr c) (i : ι) :
    Exact (callsOf i tr) ∧ ∀ q, handledFrom q (callsOf i tr) <+: (eventsPut q tr).map pkgData := by
  have hkept : Kept S c.world tr := by
    refine (Program.Run.invariant (I := Kept S) hrun S.kept_start S.follows ?_).1
    intro w tr p c r w' h hallows hserve hcalm
    cases p with
    | none => exact kept_server h hallows hserve hcalm
    | some i => exact kept_client h hallows hserve hcalm
  refine ⟨(hkept.clients i).exact,fun q => ?_⟩
  have hhandled := (hkept.clients i).handled q
  have htaken : takenFrom q (callsOf i tr) <+: eventsPut q tr := by
    by_cases howner : ownerOf S.owner c.world q = some i
    · obtain ⟨rest,hrest,_⟩ := hkept.inv.history i q howner
      exact ⟨rest,hrest.symm⟩
    · rw [hkept.inv.foreign i q howner]
      exact List.nil_prefix
  refine List.IsPrefix.trans ?_ (htaken.map pkgData)
  rw [← hhandled]
  exact List.prefix_append _ _

def sampleServer : MsgQSrv := ⟨0,0,1,0,fun _ => ⟨0,⟨0,0⟩,1,1⟩,Registry.empty⟩

theorem sampleServer_ringed :
    MsgQSrv.Ringed sampleServer.head sampleServer.qid MsgQSrv.IsQueueId sampleServer [1] [1] [] where
  rooted := rfl
  queue := rfl
  linked := ⟨⟨by simp [Neighbours,sampleServer,MsgQSrv.nextOf,MsgQSrv.prevOf],List.nodup_singleton _⟩,
    by decide,by simp⟩
  amount := rfl
  bound := by decide
  distinct := List.nodup_nil
  accepted := by simp
  inv := Registry.Inv.empty [1]
  owned := List.Perm.refl _
  outside := List.mem_singleton.mpr rfl

def sampleSystem (script : ℕ → ServerEventCall) (calls : ℕ → EventCall) : EventSystem Unit where
  keyOf _ := 7
  owner key := if key = 7 then some () else none
  srvKey := 3
  srvPid := 9
  srv := sampleServer
  heap := [1]
  script := script
  clients _ := ⟨0,0,0,0⟩
  scripts _ := calls
  serverKey := rfl
  ownKeys _ _ _ _ _ := rfl
  pid := by decide
  queue := by decide
  ringed := sampleServer_ringed
  fresh _ := ⟨rfl,rfl,rfl⟩

def eventKey : Path := keyPath (MsgQClt.eventName ['a'])

def registration : List (Step Unit) :=
  [⟨some (),.stat messageQueuePath,.ok ()⟩,⟨some (),.access eventKey,.ok ()⟩,
    ⟨some (),.ftok eventKey 1,.ok 7⟩,⟨some (),.msgget 7 0o777,.error .ENOENT⟩,
    ⟨some (),.msgget 7 (ipcCreat ||| 0o777),.ok 1⟩,⟨some (),.msgsnd 0 ⟨2,1,[]⟩ true,.ok ()⟩,
    ⟨some (),.clockGettime,none⟩,⟨none,.msgrcv 0 2040 2 false,.ok ⟨2,1,[]⟩⟩,
      ⟨none,.malloc 40,(100 : ℕ)⟩,
    ⟨none,.clockGettime,none⟩,⟨none,.getpid,(9 : ℤ)⟩,⟨none,.msgsnd 1 ⟨2,9,[]⟩ false,.ok ()⟩,
    ⟨some (),.msgrcv 1 2040 0 true,.ok ⟨2,9,[]⟩⟩]

def oneEvent : List (Step Unit) :=
  [⟨none,.getpid,(9 : ℤ)⟩,⟨none,.msgsnd 1 ⟨9,0,[5]⟩ true,.ok ()⟩,
    ⟨some (),.msgrcv 1 2040 0 false,.ok ⟨9,0,[5]⟩⟩,⟨some (),.handler 6 (pkgData ⟨9,0,[5]⟩),(0 : ℤ)⟩]

theorem run_events_sample : Exact (callsOf () (registration ++ oneEvent)) ∧
    handledFrom 1 (callsOf () (registration ++ oneEvent)) <+: [pkgData ⟨9,0,[5]⟩] := by
  let S := sampleSystem (fun n => if n = 0 then .monitor 0 else .sendevent (some [5]) 1)
    fun n => if n = 0 then .request (some ['a']) 6 else .monitor 0
  obtain ⟨c,hc⟩ := Option.isSome_iff_exists.mp
    (show (Program.exec (serveEvents S.keyOf S.srvPid) S.start (registration ++ oneEvent)).isSome by
      decide +kernel)
  have hcalm : Program.Obeys (serveEvents S.keyOf S.srvPid) (Calm S.srv.qid) S.start.world []
      (registration ++ oneEvent) := by decide +kernel
  have hrun : Program.Run (serveEvents S.keyOf S.srvPid) (Calm S.srv.qid) S.start
      (registration ++ oneEvent) c := Program.Run.refl.obey hcalm hc
  obtain ⟨hexact,hhandled⟩ := run_events hrun ()
  exact ⟨hexact,hhandled 1⟩

/-- The client loses its registration and registers again; an event comes before the response,
which goes to the handler. -/
def lateResponse : List (Step Unit) :=
  [⟨some (),.clockGettime,some ⟨4,0⟩⟩,⟨some (),.msgrcv 1 2040 0 true,.error .EINTR⟩,
    ⟨some (),.clockGettime,some ⟨4,0⟩⟩,
    ⟨some (),.stat messageQueuePath,.ok ()⟩,⟨some (),.access eventKey,.ok ()⟩,
      ⟨some (),.ftok eventKey 1,.ok 7⟩,
    ⟨some (),.msgget 7 0o777,.ok 1⟩,⟨some (),.msgsnd 0 ⟨2,1,[]⟩ true,.ok ()⟩,
      ⟨some (),.clockGettime,none⟩,
    ⟨none,.getpid,(9 : ℤ)⟩,⟨none,.msgsnd 1 ⟨9,0,[5]⟩ true,.ok ()⟩,
    ⟨some (),.msgrcv 1 2040 0 true,.ok ⟨9,0,[5]⟩⟩,⟨none,.msgrcv 0 2040 2 false,.ok ⟨2,1,[]⟩⟩,
    ⟨none,.clockGettime,none⟩,⟨none,.getpid,(9 : ℤ)⟩,⟨none,.msgsnd 1 ⟨2,9,[]⟩ false,.ok ()⟩,
    ⟨some (),.msgrcv 1 2040 0 false,.ok ⟨2,9,[]⟩⟩,⟨some (),.handler 6 (pkgData ⟨2,9,[]⟩),(0 : ℤ)⟩]

theorem run_events_fails : ¬ ∀ (S : EventSystem Unit) (tr : List (Step Unit))
    (c : Program.Config (Option Unit) EventWorld SysCall SysCall.Answer),
    Program.Run (serveEvents S.keyOf S.srvPid) Program.anyCall S.start tr c →
    ∀ i, Exact (callsOf i tr) ∧
      ∀ q, handledFrom q (callsOf i tr) <+: (eventsPut q tr).map pkgData := by
  intro h
  let S := sampleSystem (fun n => if n = 1 then .sendevent (some [5]) 1 else .monitor 0)
    fun n => if n = 0 ∨ n = 2 then .request (some ['a']) 6 else .monitor (if n = 1 then 1000 else 0)
  obtain ⟨c,hc⟩ := Option.isSome_iff_exists.mp
    (show (Program.exec (serveEvents S.keyOf S.srvPid) S.start
      (registration ++ lateResponse)).isSome by
      decide +kernel)
  have hrun : Program.Run (serveEvents S.keyOf S.srvPid) Program.anyCall S.start
      (registration ++ lateResponse) c := Program.Run.refl.exec (Program.complies_anyCall _) hc
  have hexact := (h S _ c hrun ()).1 _ ⟨.handler 6 (pkgData ⟨2,9,[]⟩),(0 : ℤ)⟩ []
    (show callsOf () (registration ++ lateResponse) =
      callsOf () (registration ++ lateResponse.dropLast) ++ [_] by rfl)
  have hlast : (callsOf () (registration ++ lateResponse.dropLast)).getLast?.bind event? = none := rfl
  rw [hlast] at hexact
  exact absurd hexact (by simp [handled?])

end EventSystem
end MsgQ
end LixRtos
