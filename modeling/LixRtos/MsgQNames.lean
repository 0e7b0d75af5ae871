import LixRtos.MsgQLoops
import Mathlib.Logic.Encodable.Basic
import Mathlib.Logic.Equiv.List

/-! Names of queues. A name is cut where the buffer of its path ends, and names that agree up to
there give the same key file and so the same queue. -/
namespace LixRtos
namespace MsgQ

variable {F : Type}

/-- The files that paths name, the keys that `ftok` gives them and the queues of the keys. -/
structure KeyFiles (F : Type) where
  file : Path → F
  key : F → ℤ
  queue : ℤ → ℤ
  key_injective : Function.Injective key
  queue_injective : Function.Injective queue
  queue_nonneg : ∀ k, 0 ≤ queue k

namespace KeyFiles

def queueAt (sys : KeyFiles F) (path : Path) : ℤ := sys.queue (sys.key (sys.file path))

/-- Any call can fail; `ftok` and `msgget` give what is theirs. -/
def opening (sys : KeyFiles F) : Program.Protocol SysCall SysCall.Answer Unit where
  allows _ _ := True
  answers
    | _, .ftok path _, .ok k => k = sys.key (sys.file path)
    | _, .msgget k _, .ok qid => qid = sys.queue k
    | _, _, _ => True
  next _ _ _ := ()

end KeyFiles

/-- Whatever happens in two calls, one of them fails or their queues are different. -/
def Separated (sys : KeyFiles F) (first second : Sys ℤ) : Prop :=
  ∀ tr₁ tr₂ qid₁ qid₂, first.Yields tr₁ qid₁ → sys.opening.Accepts () tr₁ →
    second.Yields tr₂ qid₂ → sys.opening.Accepts () tr₂ → qid₁ < 0 ∨ qid₂ < 0 ∨ qid₁ ≠ qid₂

/-- The private queue of a client that `msgQ_clt_requestevent` has registered. -/
def privateQueue (client : MsgQClt) (key : Path) (hand : ℕ) : Sys ℤ := do
  let r ← client.requestevent (some key) hand
  pure (if r.1 = 0 then r.2.eid else -1)

/-- Different names of servers have different key files and different queues. -/
def ServersApart (sys : KeyFiles F) (name name' : Path) : Prop :=
  name ≠ name' → keyPath name ≠ keyPath name' ∧
    Separated sys (getQid (some name)) (getQid (some name'))

def ClientsApart (sys : KeyFiles F) (client client' : MsgQClt) (hand hand' : ℕ) (key key' : Path) :
    Prop :=
  key ≠ key' → keyPath (MsgQClt.eventName key) ≠ keyPath (MsgQClt.eventName key') ∧
    Separated sys (privateQueue client key hand) (privateQueue client' key' hand')

def serverPart (name : Path) : Path := name.take 112

/-- What of a client's key and its suffix the name of the event queue has room for. -/
def clientPart (key : Path) : Path := (key ++ ".key".toList).take 51

def serverFront : Path := "/tmp/messageQ//".toList

def clientFront : Path := "msgQ_client_".toList

theorem clientFront_length : clientFront.length = 12 := by decide

theorem keyPath_eq (name : Path) : keyPath name = serverFront ++ serverPart name := by
  have hfront : messageQueuePath ++ '/' :: name = serverFront ++ name := by
    rw [List.append_cons]
    rfl
  have hsize : messageQueuePathSize-1 = serverFront.length + 112 := by decide
  rw [keyPath,hfront,hsize,List.take_length_add_append,serverPart]

theorem eventName_eq (key : Path) : MsgQClt.eventName key = clientFront ++ clientPart key := by
  have hsize : 63 = clientFront.length + 51 := by decide
  rw [MsgQClt.eventName,List.append_assoc,hsize,clientPart]
  exact List.take_length_add_append 51

theorem keyPath_eventName (key : Path) :
    keyPath (MsgQClt.eventName key) = serverFront ++ (clientFront ++ clientPart key) := by
  have hlen : (clientFront ++ clientPart key).length ≤ 112 := by
    have hpart : (clientPart key).length ≤ 51 := List.length_take_le ..
    rw [List.length_append,clientFront_length]
    omega
  rw [keyPath_eq,eventName_eq,serverPart,List.take_of_length_le hlen]

/-- A call that gives the queue behind `path` if it succeeds, and can succeed. -/
structure Opens (sys : KeyFiles F) (path : Path) (call : Sys ℤ) : Prop where
  gives : call.Follows sys.opening () fun _ qid => qid < 0 ∨ qid = sys.queueAt path
  succeeds : ∃ tr, call.Yields tr (sys.queueAt path) ∧ sys.opening.Accepts () tr

variable {sys : KeyFiles F} {path path' : Path} {first second : Sys ℤ}

theorem KeyFiles.queueAt_inj : sys.queueAt path = sys.queueAt path' ↔ sys.file path = sys.file path' :=
  (sys.queue_injective.comp sys.key_injective).eq_iff

/-- Two calls share a queue if and only if their paths name one file. -/
theorem separated_iff (h : Opens sys path first) (h' : Opens sys path' second) :
    Separated sys first second ↔ sys.file path ≠ sys.file path' := by
  constructor
  · intro hsep hfile
    obtain ⟨tr,hrun,hacc⟩ := h.succeeds
    obtain ⟨tr',hrun',hacc'⟩ := h'.succeeds
    have hpos : 0 ≤ sys.queueAt path := sys.queue_nonneg _
    have hpos' : 0 ≤ sys.queueAt path' := sys.queue_nonneg _
    rcases hsep tr tr' _ _ hrun hacc hrun' hacc' with hneg | hneg | hne
    · omega
    · omega
    · exact hne (KeyFiles.queueAt_inj.mpr hfile)
  · intro hfile tr tr' qid qid' hrun hacc hrun' hacc'
    rcases h.gives.yields hrun hacc with hneg | rfl
    · exact Or.inl hneg
    rcases h'.gives.yields hrun' hacc' with hneg | rfl
    · exact Or.inr (Or.inl hneg)
    · exact Or.inr (Or.inr (mt KeyFiles.queueAt_inj.mp hfile))

theorem opening_filing (sys : KeyFiles F) : Filing sys.opening () where
  stat _ := ⟨trivial,fun _ => rfl⟩
  mkdir _ := ⟨trivial,fun _ => rfl⟩
  access _ := ⟨trivial,fun _ => rfl⟩
  openCreate _ := ⟨trivial,fun _ => rfl⟩
  close _ := ⟨trivial,fun _ => rfl⟩
  ftok _ _ := ⟨trivial,fun _ => rfl⟩

theorem opening_timeless (sys : KeyFiles F) : Timeless sys.opening () :=
  ⟨⟨trivial,fun _ => rfl⟩,fun _ => ⟨trivial,fun _ => rfl⟩⟩

/-- The calls of `msgQ_get_qid` when the directory, the key file and the queue exist. -/
def foundTrace (sys : KeyFiles F) (name : Path) : List (Program.Exchange SysCall SysCall.Answer) :=
  [⟨.stat messageQueuePath,.ok ()⟩,⟨.access (keyPath name),.ok ()⟩,
    ⟨.ftok (keyPath name) 1,.ok (sys.key (sys.file (keyPath name)))⟩,
    ⟨.msgget (sys.key (sys.file (keyPath name))) 0o777,.ok (sys.queueAt (keyPath name))⟩]

theorem foundTrace_yields (sys : KeyFiles F) (name : Path) :
    (getQid (some name)).Yields (foundTrace sys name) (sys.queueAt (keyPath name)) := by
  have hdir : makeDirectory.Yields [⟨.stat messageQueuePath,.ok ()⟩] (.ok ()) :=
    (Sys.request_yields (.stat messageQueuePath) (.ok ())).bind (.ret _)
  have htouch : (touch (keyPath name)).Yields [⟨.access (keyPath name),.ok ()⟩] (.ok ()) :=
    (Sys.request_yields (.access (keyPath name)) (.ok ())).bind (.ret _)
  have hopen : (openQueue (sys.key (sys.file (keyPath name)))).Yields
      [⟨.msgget (sys.key (sys.file (keyPath name))) 0o777,.ok (sys.queueAt (keyPath name))⟩]
      (sys.queueAt (keyPath name)) :=
    (Sys.request_yields (.msgget _ 0o777) (.ok _)).bind (.ret _)
  exact hdir.bind (htouch.bind ((Sys.request_yields (.ftok (keyPath name) 1) (.ok _)).bind hopen))

theorem getQid_opens (sys : KeyFiles F) (name : Path) : Opens sys (keyPath name)
    (getQid (some name)) := by
  refine ⟨getQid_follows (opening_filing sys) name (Or.inl (by decide)) fun key flag hkey => ?_,
    foundTrace sys name,foundTrace_yields sys name,trivial,trivial,rfl,rfl,trivial⟩
  refine ⟨trivial,fun _ => rfl,fun qid hqid => Or.inr ?_⟩
  have hk : key = sys.key (sys.file (keyPath name)) := hkey
  have hq : qid = sys.queue key := hqid
  rw [hq,hk]
  rfl

theorem register_follows_opening (sys : KeyFiles F) (client : MsgQClt) (hand : ℕ) :
    (client.register hand).Follows sys.opening () fun _ r => r.2.eid = client.eid := by
  have hdrop : ((Sys.request (.msgctlRmid client.eid)).bind fun _ =>
      (.ret (-1,client) : Sys (ℤ × MsgQClt))).Follows sys.opening () fun _ r => r.2.eid = client.eid :=
    ⟨trivial,fun _ _ => rfl⟩
  refine Program.Follows.bind (sendRetry_follows trivial (fun _ => rfl) (fun _ => ?_) fun _ _ => hdrop)
  refine Program.Follows.bind (((opening_timeless sys).tmSetMs _ _).mono fun _ timer _ => ?_)
  exact Program.Follows.bind (receiveLoop_follows (opening_timeless sys) (pure_follows _) trivial
    (fun _ => rfl) (fun _ _ => rfl) hdrop fun _ => hdrop)

def answeredTrace (client : MsgQClt) : List (Program.Exchange SysCall SysCall.Answer) :=
  [⟨.msgsnd client.srvQ ⟨messageQueueRegToServer,client.eid,[]⟩ true,.ok ()⟩,⟨.clockGettime,none⟩,
    ⟨.msgrcv client.eid messageQueueMaxSize messageQueueAnyMessage true,.ok ⟨1,1,[]⟩⟩]

theorem answeredTrace_yields (client : MsgQClt) (hand : ℕ) :
    (client.register hand).Yields (answeredTrace client) (0,{ client with pid := 1, hand := hand }) :=
  (sendRetry_yields _ _ _).bind (((Sys.request_yields .clockGettime none).bind (.ret _)).bind
    ((receiveLoop_yields _ _ _ _ _ ⟨1,1,[]⟩).bind (.ret _)))

theorem privateQueue_opens (sys : KeyFiles F) {client : MsgQClt} {hand : ℕ} (hpid : client.pid = 0)
    (hhand : hand ≠ 0) (key : Path) :
    Opens sys (keyPath (MsgQClt.eventName key)) (privateQueue client key hand) := by
  have hopens := getQid_opens sys (MsgQClt.eventName key)
  have hcall : privateQueue client key hand =
      ((getQid (some (MsgQClt.eventName key))).bind fun eid : ℤ =>
      if eid < 0 then .ret (-1,{ client with eid := eid })
      else MsgQClt.register { client with eid := eid } hand).bind
        fun r => .ret (if r.1 = 0 then r.2.eid else -1) := by
    simp only [privateQueue,MsgQClt.requestevent,if_neg hhand,if_neg (not_not.mpr hpid)]
    rfl
  rw [hcall]
  constructor
  · refine Program.Follows.bind (Program.Follows.bind (hopens.gives.mono ?_))
    rintro _ eid hgives
    split
    · exact Or.inl (by simp)
    next hneg =>
    apply (register_follows_opening sys { client with eid := eid } hand).mono
    rintro _ ⟨ret,client'⟩ (hr : client'.eid = eid)
    by_cases hzero : ret = 0
    · apply Or.inr
      rw [if_pos hzero,hr]
      exact hgives.resolve_left hneg
    · apply Or.inl
      rw [if_neg hzero]
      decide
  · have hpos : ¬ sys.queueAt (keyPath (MsgQClt.eventName key)) < 0 := not_lt.mpr (sys.queue_nonneg _)
    have hfound : ((getQid (some (MsgQClt.eventName key))).bind fun eid : ℤ =>
        if eid < 0 then .ret (-1,{ client with eid := eid })
        else MsgQClt.register { client with eid := eid } hand).Yields
          (foundTrace sys (MsgQClt.eventName key) ++
            answeredTrace { client with eid := sys.queueAt (keyPath (MsgQClt.eventName key)) })
          (0,⟨client.srvQ,1,sys.queueAt (keyPath (MsgQClt.eventName key)),hand⟩) := by
      apply (foundTrace_yields sys (MsgQClt.eventName key)).bind
      rw [if_neg hpos]
      exact answeredTrace_yields _ hand
    refine ⟨_,hfound.bind (.ret _),?_⟩
    · exact ⟨trivial,trivial,rfl,rfl,trivial,trivial,trivial,trivial⟩

/-- Servers are kept apart if and only if the files of their names, cut to 112 characters, are
different, and clients if and only if those of their keys are, cut with their suffix to 51. -/
theorem names_apart_iff (sys : KeyFiles F) {client client' : MsgQClt} {hand hand' : ℕ}
    (hpid : client.pid = 0)
    (hpid' : client'.pid = 0) (hhand : hand ≠ 0) (hhand' : hand' ≠ 0) (name name' key key' : Path) :
    (ServersApart sys name name' ↔ (name ≠ name' → serverPart name ≠ serverPart name' ∧
      sys.file (serverFront ++ serverPart name) ≠ sys.file (serverFront ++ serverPart name'))) ∧
    (ClientsApart sys client client' hand hand' key key' ↔
      (key ≠ key' → clientPart key ≠ clientPart key' ∧
      sys.file (serverFront ++ (clientFront ++ clientPart key)) ≠
        sys.file (serverFront ++ (clientFront ++ clientPart key')))) := by
  constructor
  · rw [ServersApart,separated_iff (getQid_opens sys name) (getQid_opens sys name'),keyPath_eq,
      keyPath_eq,
      (List.append_right_injective serverFront).ne_iff]
  · rw [ClientsApart,separated_iff (privateQueue_opens sys hpid hhand key)
      (privateQueue_opens sys hpid' hhand' key'),keyPath_eventName,keyPath_eventName,
      (List.append_right_injective serverFront).ne_iff,
      (List.append_right_injective clientFront).ne_iff]

def ownFiles : KeyFiles Path where
  file := id
  key path := Encodable.encode (path.map Char.toNat)
  queue k := Encodable.encode k
  key_injective := fun _ _ h => List.map_injective_iff.mpr (fun _ _ => Char.toNat_inj.mp)
    (Encodable.encode_injective (Int.ofNat_inj.mp h))
  queue_injective := fun _ _ h => Encodable.encode_injective (Int.ofNat_inj.mp h)
  queue_nonneg _ := Int.natCast_nonneg _

theorem names_apart_iff_sample :
    ServersApart ownFiles "sensors".toList "motors".toList ∧
      ClientsApart ownFiles ⟨7,0,0,0⟩ ⟨7,0,0,0⟩ 1 2 "panel".toList "logger".toList := by
  have hpid : (⟨7,0,0,0⟩ : MsgQClt).pid = 0 := rfl
  obtain ⟨hservers,hclients⟩ := names_apart_iff ownFiles hpid hpid one_ne_zero two_ne_zero
    "sensors".toList "motors".toList "panel".toList "logger".toList
  refine ⟨hservers.mpr fun _ => ?_,hclients.mpr fun _ => ?_⟩
  · exact ⟨by decide,by unfold ownFiles; decide⟩
  · exact ⟨by decide,by unfold ownFiles; decide⟩

def longName (n : ℕ) (last : Char) : Path := List.replicate n 'x' ++ [last]

theorem long_names_collide :
    ¬ ServersApart ownFiles (longName 112 '1') (longName 112 '2') ∧
      ¬ ClientsApart ownFiles ⟨7,0,0,0⟩ ⟨7,0,0,0⟩ 1 2 (longName 51 '1') (longName 51 '2') := by
  constructor
  · intro h
    exact (h (by decide)).1 (by decide)
  · intro h
    exact (h (by decide)).1 (by decide)

end MsgQ
end LixRtos
