import LixRtos.MsgQ

/-! Rules for the loops and timers that the functions of `msgQ.c` share, for any protocol that does
not care for the time. -/
namespace LixRtos

theorem Timeless.startTimer {A : Type} {P : Program.Protocol SysCall SysCall.Answer A} {a : A}
    (h : Timeless P a) (tout : ℤ) : (MsgQ.startTimer tout).Follows P a fun a' _ => a' = a := by
  rw [MsgQ.startTimer]
  split
  · exact rfl
  · exact h.tmSetMs _ _

namespace MsgQ

variable {A : Type} {P : Program.Protocol SysCall SysCall.Answer A} {a : A} {qid t : ℤ}

theorem pure_follows (t : ℤ) : (pure t : Sys ℤ).Follows P a fun a' x => a' = a ∧ x = t := ⟨rfl,rfl⟩

/-- Looking for files and making them is allowed and does not matter. -/
structure Filing {A : Type} (P : Program.Protocol SysCall SysCall.Answer A) (a : A) : Prop where
  stat : ∀ path, P.allows a (.stat path) ∧ ∀ r, P.next a (.stat path) r = a
  mkdir : ∀ path, P.allows a (.mkdir path) ∧ ∀ r, P.next a (.mkdir path) r = a
  access : ∀ path, P.allows a (.access path) ∧ ∀ r, P.next a (.access path) r = a
  openCreate : ∀ path, P.allows a (.openCreate path) ∧ ∀ r, P.next a (.openCreate path) r = a
  close : ∀ fd, P.allows a (.close fd) ∧ ∀ r, P.next a (.close fd) r = a
  ftok : ∀ path id, P.allows a (.ftok path id) ∧ ∀ r, P.next a (.ftok path id) r = a

theorem makeDirectory_follows (hfiles : Filing P a) : makeDirectory.Follows P a fun a' _ =>
    a' = a := by
  refine Program.Follows.bind (Program.Follows.perform (hfiles.stat _).1 ?_)
  rintro (e | _) _
  · rw [(hfiles.stat _).2]
    exact Program.Follows.perform (hfiles.mkdir _).1 fun r _ => (hfiles.mkdir _).2 r
  · exact (hfiles.stat _).2 _

theorem touch_follows (hfiles : Filing P a) (path : Path) :
    (touch path).Follows P a fun a' _ => a' = a := by
  refine Program.Follows.bind (Program.Follows.perform (hfiles.access path).1 ?_)
  rintro (e | _) _
  · rw [(hfiles.access path).2]
    refine Program.Follows.bind (Program.Follows.perform (hfiles.openCreate path).1 ?_)
    rintro (e | fd) _
    · exact (hfiles.openCreate path).2 _
    · rw [(hfiles.openCreate path).2]
      exact Program.Follows.bind (Program.Follows.perform (hfiles.close fd).1 fun r _ =>
        (hfiles.close fd).2 r)
  · exact (hfiles.access path).2 _

theorem getQid_follows (hfiles : Filing P a) (name : Path) {post : A → ℤ → Prop} (hfail : post a (-1))
    (hget : ∀ key flag, P.answers a (.ftok (keyPath name) 1) (.ok key) →
      P.allows a (.msgget key flag) ∧ (∀ e, P.next a (.msgget key flag) (.error e) = a) ∧
        ∀ qid, P.answers a (.msgget key flag) (.ok qid) →
          post (P.next a (.msgget key flag) (.ok qid)) qid) :
    (getQid (some name)).Follows P a post := by
  refine Program.Follows.bind ((makeDirectory_follows hfiles).mono ?_)
  rintro a (e | _) rfl
  · exact hfail
  refine Program.Follows.bind ((touch_follows hfiles _).mono ?_)
  rintro a (e | _) rfl
  · exact hfail
  refine Program.Follows.bind (Program.Follows.perform (hfiles.ftok _ 1).1 fun r hr => ?_)
  rw [(hfiles.ftok _ 1).2]
  cases r with
  | error e => exact hfail
  | ok key =>
    obtain ⟨hallows,herr,hok⟩ := hget key 0o777 hr
    refine Program.Follows.bind (Program.Follows.perform hallows fun r hr' => ?_)
    cases r with
    | ok qid => exact hok qid hr'
    | error e =>
      rw [herr]
      obtain ⟨hallows,herr,hok⟩ := hget key (ipcCreat ||| 0o777) hr
      -- a queue that is not there is created
      cases e with
      | ENOENT =>
        refine Program.Follows.bind (Program.Follows.perform hallows fun r hr'' => ?_)
        cases r with
        | ok qid => exact hok qid hr''
        | error e =>
          rw [herr]
          exact hfail
      | _ => exact hfail

theorem sendRetry_follows_of {pkg : Message} {nowait : Bool} {post : A → Option Errno → Prop}
    (hallows : P.allows a (.msgsnd qid pkg nowait))
    (hagain : P.next a (.msgsnd qid pkg nowait) (.error .EINTR) = a)
    (hsent : P.answers a (.msgsnd qid pkg nowait) (.ok ()) →
      post (P.next a (.msgsnd qid pkg nowait) (.ok ())) none)
    (hfailed : ∀ e, e ≠ .EINTR → P.answers a (.msgsnd qid pkg nowait) (.error e) →
      post (P.next a (.msgsnd qid pkg nowait) (.error e)) (some e)) :
    (sendRetry qid pkg nowait).Follows P a post := by
  apply Program.Follows.iterate (fun a' _ => a' = a) rfl
  rintro a _ rfl
  refine Program.Follows.bind (Program.Follows.perform hallows ?_)
  rintro (e | _) h
  · cases e with
    | EINTR => exact hagain
    | _ => exact hfailed _ (by simp) h
  · exact hsent h

theorem sendRetry_follows {pkg : Message} {nowait : Bool} {post : A → Option Errno → Prop}
    (hallows : P.allows a (.msgsnd qid pkg nowait))
    (herr : ∀ e, P.next a (.msgsnd qid pkg nowait) (.error e) = a)
    (hsent : P.answers a (.msgsnd qid pkg nowait) (.ok ()) →
      post (P.next a (.msgsnd qid pkg nowait) (.ok ())) none)
    (hfailed : ∀ e, P.answers a (.msgsnd qid pkg nowait) (.error e) → post a (some e)) :
    (sendRetry qid pkg nowait).Follows P a post :=
  sendRetry_follows_of hallows (herr .EINTR) hsent fun e _ h => (herr e).symm ▸ hfailed e h

/-- The call is made once more: `msgrcv` found nothing, or `msgsnd` was interrupted. -/
def again : Program.Exchange SysCall SysCall.Answer → Bool
  | ⟨.msgrcv _ _ _ _,.error .ENOMSG⟩ => true
  | ⟨.msgsnd _ _ _,.error .EINTR⟩ => true
  | _ => false

def patient : Program.Protocol SysCall SysCall.Answer ℕ where
  allows _ _ := True
  answers n c r := again ⟨c,r⟩ = true → n ≠ 0
  next n c r := if again ⟨c,r⟩ then n-1 else n

theorem patient_accepts {tr : List (Program.Exchange SysCall SysCall.Answer)} {n : ℕ}
    (h : tr.length ≤ n) :
    patient.Accepts n tr := by
  induction tr generalizing n with
  | nil => trivial
  | cons e tr ih =>
    rw [List.length_cons] at h
    refine ⟨fun _ => by omega,ih ?_⟩
    simp only [patient]
    split <;> omega

theorem yields_of_patient {α : Type} {p : Sys α} (post : A → α → Prop)
    (h : ∀ n, Program.Ends (patient.both P) p (n,a) fun s x => post s.2 x)
    {tr : List (Program.Exchange SysCall SysCall.Answer)} {x : α} (hy : p.Yields tr x)
    (hacc : P.Accepts a tr) :
    post (P.final a tr) x := by
  have hpost := (h tr.length).follows.yields hy
    (Program.Protocol.accepts_both (patient_accepts le_rfl) hacc)
  rwa [Program.Protocol.both_final] at hpost

theorem startTimer_patient (tout : ℤ) (n : ℕ) : Program.Ends patient (startTimer tout) n fun _ _ =>
    True := by
  rw [startTimer]
  split
  · exact .ret trivial
  · exact Program.Ends.bind (.perform trivial fun _ _ => .ret trivial)

theorem sendRetry_patient (qid : ℤ) (pkg : Message) (nowait : Bool) (n : ℕ) :
    Program.Ends patient (sendRetry qid pkg nowait) n fun _ _ => True := by
  induction n with
  | zero =>
    refine Program.Ends.iterate (Program.Ends.bind (.perform trivial ?_))
    rintro (e | _) h
    · cases e with
      | EINTR => exact absurd rfl (h rfl)
      | _ => exact .ret (.ret trivial)
    · exact .ret (.ret trivial)
  | succ n ih =>
    refine Program.Ends.iterate (Program.Ends.bind (.perform trivial ?_))
    rintro (e | _) _
    · cases e with
      | EINTR => exact .ret ih
      | _ => exact .ret (.ret trivial)
    · exact .ret (.ret trivial)

theorem sendRetry_yields (qid : ℤ) (pkg : Message) (nowait : Bool) :
    (sendRetry qid pkg nowait).Yields [⟨.msgsnd qid pkg nowait,.ok ()⟩] none := by
  apply Program.Yields.iterate_done
  apply Program.Yields.bind (Sys.request_yields (.msgsnd _ _ _) (.ok ()))
  exact .ret _

theorem receiveLoop_yields (qid t : ℤ) (nowait delay : Bool) (timer : Timer) (pkg : Message) :
    (receiveLoop qid (pure t) nowait timer delay).Yields
      [⟨.msgrcv qid messageQueueMaxSize t nowait,.ok pkg⟩] (.got pkg) := by
  apply Program.Yields.iterate_done
  apply Program.Yields.bind (Sys.request_yields (.msgrcv _ _ _ _) (.ok pkg))
  exact .ret _

theorem clientSend_yields (client : MsgQClt) (pid : ℤ) {data : Bytes} (hpos : 1 ≤ data.length)
    (hlen : data.length ≤ messageQueueMaxSize) :
    (client.send (some data) data.length).Yields [⟨.getpid,pid⟩,
      ⟨.msgsnd client.srvQ ⟨messageQueueSendToServer,pid,data⟩ false,.ok ()⟩] 0 := by
  simp only [MsgQClt.send,if_neg (show data.length ≠ 0 by omega),
    if_neg (show ¬ data.length > messageQueueMaxSize by omega),List.take_length]
  apply Program.Yields.bind (Sys.request_yields .getpid pid)
  apply Program.Yields.bind (sendRetry_yields _ _ _)
  exact .ret 0

theorem receiveLoop_follows_of (htime : Timeless P a) {msgid : Sys ℤ} {Q : ℤ → Prop}
    {nowait delay : Bool}
    {timer : Timer} {post : A → Received → Prop} (hmsgid : msgid.Follows P a fun a' t => a' = a ∧ Q t)
    (hallows : ∀ t, Q t → P.allows a (.msgrcv qid messageQueueMaxSize t nowait))
    (herr : ∀ t, Q t → ∀ e, P.next a (.msgrcv qid messageQueueMaxSize t nowait) (.error e) = a)
    (hgot : ∀ t, Q t → ∀ pkg, P.answers a (.msgrcv qid messageQueueMaxSize t nowait) (.ok pkg) →
      post (P.next a (.msgrcv qid messageQueueMaxSize t nowait) (.ok pkg)) (.got pkg))
    (htimeout : post a .timeout) (hfailed : ∀ e, post a (.failed e)) :
    (receiveLoop qid msgid nowait timer delay).Follows P a post := by
  apply Program.Follows.iterate (fun a' _ => a' = a) rfl
  rintro a _ rfl
  refine Program.Follows.bind (hmsgid.mono ?_)
  rintro a t ⟨rfl,ht⟩
  refine Program.Follows.bind (Program.Follows.perform (hallows t ht) ?_)
  rintro (e | pkg) h
  · rw [herr t ht]
    refine Program.Follows.bind ((htime.tmIsTimeout timer).mono ?_)
    rintro a expired rfl
    split
    · exact htimeout
    split
    · exact hfailed e
    split
    · exact Program.Follows.bind (Program.Follows.perform (htime.usleep 1000).1
        fun r _ => (htime.usleep 1000).2 r)
    · exact rfl
  · exact hgot t ht pkg h

theorem receiveLoop_follows (htime : Timeless P a) {msgid : Sys ℤ} {nowait delay : Bool}
    {timer : Timer}
    {post : A → Received → Prop} (hmsgid : msgid.Follows P a fun a' x => a' = a ∧ x = t)
    (hallows : P.allows a (.msgrcv qid messageQueueMaxSize t nowait))
    (herr : ∀ e, P.next a (.msgrcv qid messageQueueMaxSize t nowait) (.error e) = a)
    (hgot : ∀ pkg, P.answers a (.msgrcv qid messageQueueMaxSize t nowait) (.ok pkg) →
      post (P.next a (.msgrcv qid messageQueueMaxSize t nowait) (.ok pkg)) (.got pkg))
    (htimeout : post a .timeout) (hfailed : ∀ e, post a (.failed e)) :
    (receiveLoop qid msgid nowait timer delay).Follows P a post :=
  receiveLoop_follows_of htime hmsgid (fun _ ht => ht ▸ hallows) (fun _ ht => ht ▸ herr)
    (fun _ ht => ht ▸ hgot) htimeout hfailed

theorem receiveLoop_patient {msgid : Sys ℤ}
    (hmsgid : ∀ n, Program.Ends patient msgid n fun n' _ => n' = n)
    (qid : ℤ) (nowait : Bool) (timer : Timer) (delay : Bool) (n : ℕ) :
    Program.Ends patient (receiveLoop qid msgid nowait timer delay) n fun _ _ => True := by
  have hturn {n : ℕ} (hagain : n ≠ 0 →
      Program.Ends patient (receiveLoop qid msgid nowait timer delay) (n-1) fun _ _ => True) :
      Program.Ends patient (receiveLoop qid msgid nowait timer delay) n fun _ _ => True := by
    refine Program.Ends.iterate (Program.Ends.bind ((hmsgid n).mono ?_))
    rintro _ t rfl
    refine Program.Ends.bind (.perform trivial ?_)
    rintro (e | pkg) h
    · refine Program.Ends.bind (Program.Ends.bind (.perform trivial fun clock _ => .ret ?_))
      split
      · exact .ret (.ret trivial)
      split
      · exact .ret (.ret trivial)
      next he =>
      obtain rfl := not_not.mp he
      cases delay with
      | true => exact Program.Ends.bind (.perform trivial fun _ _ => .ret (hagain (h rfl)))
      | false => exact .ret (hagain (h rfl))
    · exact .ret (.ret trivial)
  induction n with
  | zero => exact hturn fun h => absurd rfl h
  | succ n ih => exact hturn fun _ => ih

theorem copyOut_follows {dst src : Bytes} {cnt : ℤ} {post : A → Bytes → Prop}
    (hfault : P.allows a .fault)
    (hpost : post a (src.take cnt.toNat ++ dst.drop cnt.toNat)) :
    (copyOut dst src cnt).Follows P a post := by
  rw [copyOut]
  split
  · exact ⟨hfault,fun r => r.elim⟩
  · exact hpost

end MsgQ
end LixRtos
