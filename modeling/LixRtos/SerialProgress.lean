import LixRtos.Serial

/-! The loop of `serial_recv` on a stream of answers. -/
namespace LixRtos

/-- What `epoll_wait` and `read` answer in each turn; `read` gives as much of it as there is room
for. -/
structure Outcomes where
  waits : ℕ → EpollWait
  reads : ℕ → Option Bytes

/-- The turns that have begun, and whether the last `read` has given nothing. -/
structure Pace where
  turns : ℕ
  idle : Bool

namespace Outcomes

def stream (o : Outcomes) : Program.Protocol SerialCall SerialCall.Answer Pace where
  allows _ _ := True
  answers p c r :=
    match c, r with
    | .epollWait _ _, w => w = o.waits p.turns
    | .read _ _ size, got => got = (o.reads (p.turns-1)).map (List.take size)
    | _, _ => True
  next p c r :=
    match c, r with
    | .epollWait _ _, _ => { p with turns := p.turns+1 }
    | .read _ _ _, some bytes => { p with idle := bytes.isEmpty }
    | _, _ => p

def paced (o : Outcomes) : Program.Protocol SerialCall SerialCall.Answer Pace :=
  { o.stream with
    allows := fun p c =>
      match c with
      | .epollWait _ _ => p.idle = false
      | _ => True }

def received (o : Outcomes) : ℕ → ℕ
  | 0 => 0
  | k+1 => o.received k + ((o.reads k).getD []).length

structure Reaches (o : Outcomes) (len : ℤ) (k : ℕ) : Prop where
  goesOn : ∀ i < k, o.waits i ≠ .timeout ∧ o.reads i ≠ none
  short : o.received k < len

/-- In no turn to which the stream leads an event comes without a byte. -/
def Feeds (o : Outcomes) (len : ℤ) : Prop :=
  ∀ k, o.Reaches len k → o.waits k ≠ .timeout → o.reads k ≠ some []

/-- Every turn receives something or is the last one, and there are `len+1` turns at most. -/
def Progresses (o : Outcomes) (srl : SerialClass) (len ev : ℤ) (data : Buffer) : Prop :=
  Program.Ends o.paced (srl.recvLoop len ev data) ⟨0,false⟩ fun p _ => (p.turns : ℤ) ≤ len+1

end Outcomes

namespace SerialClass

def recvFrom (srl : SerialClass) (len ev n : ℤ) (data : Buffer) : Line (ℤ × Buffer) :=
  Program.iterate (fun (ev,rxlen,data) => srl.recvTurn len ev rxlen data) (ev,n,data)

end SerialClass

def EpollWait.eventFd (w : EpollWait) (ev : ℤ) : ℤ :=
  match w with
  | .ready fd => fd
  | _ => ev

variable {o : Outcomes} {srl : SerialClass} {len ev n : ℤ} {k : ℕ} {idle : Bool} {data : Buffer}
  {bytes : Bytes}
  {post : Pace → ℤ × Buffer → Prop}

theorem unfold_recvFrom : Program.Ends o.paced (srl.recvFrom len ev n data) ⟨k,idle⟩ post ↔
    idle = false ∧ if o.waits k = .timeout then post ⟨k+1,idle⟩ (n,data)
      else Program.Ends o.paced ((SerialClass.recvChunk len ((o.waits k).eventFd ev) n data).bind
        (Sum.elim (fun st => srl.recvFrom len st.1 st.2.1 st.2.2) Program.ret)) ⟨k+1,idle⟩ post := by
  rw [SerialClass.recvFrom,Program.iterate,Program.ends_loop]
  change Program.Ends o.paced (.call (.epollWait srl.epfd 2) _) ⟨k,idle⟩ post ↔ _
  rw [Program.ends_call]
  apply and_congr_right'
  constructor
  · intro h
    have hturn := h (o.waits k) rfl
    cases hw : o.waits k with
    | timeout =>
      rw [hw] at hturn
      rw [if_pos rfl]
      exact hturn.of_ret
    | error =>
      rw [hw] at hturn
      rw [if_neg (by simp)]
      exact hturn
    | ready fd =>
      rw [hw] at hturn
      rw [if_neg (by simp)]
      exact hturn
  · rintro h w rfl
    cases hw : o.waits k with
    | timeout =>
      rw [hw,if_pos rfl] at h
      exact .ret h
    | error =>
      rw [hw,if_neg (by simp)] at h
      exact h
    | ready fd =>
      rw [hw,if_neg (by simp)] at h
      exact h

theorem Buffer.store_nil (data : Buffer) (off : ℤ) : data.store off [] = data := by
  funext i
  simp [Buffer.store]

variable {f : ℤ × ℤ × Buffer ⊕ ℤ × Buffer → Line (ℤ × Buffer)}

theorem recvChunk_bind : (SerialClass.recvChunk len ev n data).bind f =
    .call (.read ev n ((len - n) % 2^64).toNat) fun got =>
      f (if toInt (got.elim (-1) fun bytes => bytes.length) <
        0 then .inr (-1,data.store n (got.getD []))
        else if toInt (n + toInt (got.elim (-1) fun bytes => bytes.length)) ≥ len
          then .inr (toInt (n + toInt (got.elim (-1) fun bytes => bytes.length)),data.store n
            (got.getD []))
          else .inl (ev,toInt (n + toInt (got.elim (-1) fun bytes => bytes.length)),data.store n
              (got.getD []))) := by
  refine congrArg (Program.call _) (funext fun got => ?_)
  dsimp only [Program.bind_eq,Program.ret_bind]
  split_ifs <;> rfl

theorem read_answers (size : ℕ) : ∀ got, o.paced.answers ⟨k+1,idle⟩ (.read ev n size) got ↔
    got = (o.reads k).map (List.take size) := fun _ => Iff.rfl

theorem ends_failure (h : o.reads k = none) :
    Program.Ends o.paced ((SerialClass.recvChunk len ev n data).bind f) ⟨k+1,idle⟩ post ↔
      Program.Ends o.paced (f (.inr (-1,data))) ⟨k+1,idle⟩ post := by
  rw [recvChunk_bind,Program.ends_call_of_eq (read_answers _) trivial]
  simp only [h,Option.map_none,Option.getD_none,Buffer.store_nil]
  rfl

theorem ends_chunk (hn : 0 ≤ n ∧ n < len ∧ len < 2^31) {got : Bytes} (h : o.reads k = some bytes)
    (hgot : bytes.take (len-n).toNat = got) :
    Program.Ends o.paced ((SerialClass.recvChunk len ev n data).bind f) ⟨k+1,idle⟩ post ↔
      Program.Ends o.paced (f (if n + got.length ≥ len then .inr (n + got.length,data.store n got)
        else .inl (ev,n + got.length,data.store n got))) ⟨k+1,got.isEmpty⟩ post := by
  have hsize : (len - n) % 2^64 = len - n := Int.emod_eq_of_lt (by omega) (by omega)
  have hle : got.length ≤ len - n := by
    rw [← hgot,List.length_take]
    omega
  have hlong : toInt got.length = got.length := toInt_eq (by omega) (by omega)
  have hsum : toInt (n + got.length) = n + got.length := toInt_eq (by omega) (by omega)
  have hnonneg : ¬ (got.length : ℤ) < 0 := by omega
  rw [recvChunk_bind,Program.ends_call_of_eq (read_answers _) trivial,hsize]
  simp only [h,hgot,Option.map_some,Option.elim_some,Option.getD_some,hlong,hsum,if_neg hnonneg]
  rfl

theorem ends_last (hn : 0 ≤ n ∧ n < len ∧ len < 2^31)
    (h : o.waits k = .timeout ∨ o.reads k = none ∨ ∃ bytes, o.reads k = some bytes ∧
      len ≤ n + bytes.length)
    (hpost : ∀ r, post ⟨k+1,false⟩ r) :
    Program.Ends o.paced (srl.recvFrom len ev n data) ⟨k,false⟩ post := by
  rw [unfold_recvFrom]
  refine ⟨rfl,?_⟩
  split
  · exact hpost _
  next hw =>
  rcases h with htimeout | hnone | ⟨bytes,hbytes,hfull⟩
  · exact absurd htimeout hw
  · rw [ends_failure hnone]
    exact .ret (hpost _)
  · have hlength : (bytes.take (len-n).toNat).length = (len-n).toNat := by
      rw [List.length_take]
      omega
    have hnonempty : (bytes.take (len-n).toNat).isEmpty = false :=
      List.isEmpty_eq_false_iff.mpr (List.length_pos_iff.mp (by omega))
    rw [ends_chunk hn hbytes rfl,if_pos (by omega),hnonempty]
    exact .ret (hpost _)

theorem ends_again (hn : 0 ≤ n ∧ n < len ∧ len < 2^31) (hw : o.waits k ≠ .timeout)
    (hbytes : o.reads k = some bytes)
    (hshort : n + bytes.length < len) :
    Program.Ends o.paced (srl.recvFrom len ev n data) ⟨k,false⟩ post ↔
      Program.Ends o.paced (srl.recvFrom len ((o.waits k).eventFd ev) (n + bytes.length)
        (data.store n bytes))
        ⟨k+1,bytes.isEmpty⟩ post := by
  have hall : bytes.take (len-n).toNat = bytes := List.take_of_length_le (by omega)
  rw [unfold_recvFrom,if_neg hw,ends_chunk hn hbytes hall,if_neg (by omega)]
  exact ⟨And.right,fun h => ⟨rfl,h⟩⟩

theorem not_ends_idle : ¬ Program.Ends o.paced (srl.recvFrom len ev n data) ⟨k,true⟩ post := by
  rw [unfold_recvFrom]
  exact fun h => absurd h.1 (by decide)

namespace Outcomes

theorem ends_of_feeds (hfeeds : o.Feeds len) (hlen : len < 2^31) (hk : o.Reaches len k)
    (hle : k ≤ o.received k) :
    Program.Ends o.paced (srl.recvFrom len ev (o.received k) data) ⟨k,false⟩ fun p _ =>
      (p.turns : ℤ) ≤ len+1 := by
  have hn : 0 ≤ (o.received k : ℤ) ∧ (o.received k : ℤ) < len ∧ len < 2^31 := ⟨by omega,hk.short,hlen⟩
  induction hroom : (len - o.received k).toNat using Nat.strong_induction_on generalizing k ev
      data with
  | _ room ih =>
    have hlast (h : o.waits k = .timeout ∨ o.reads k = none ∨
        ∃ bytes, o.reads k = some bytes ∧ len ≤ o.received k + bytes.length) :
        Program.Ends o.paced (srl.recvFrom len ev (o.received k) data) ⟨k,false⟩ fun p _ =>
          (p.turns : ℤ) ≤ len+1 :=
      ends_last hn h fun _ => by simp only; omega
    by_cases hw : o.waits k = .timeout
    · exact hlast (Or.inl hw)
    cases hread : o.reads k with
    | none => exact hlast (Or.inr (Or.inl hread))
    | some bytes =>
      by_cases hfull : len ≤ o.received k + bytes.length
      · exact hlast (Or.inr (Or.inr ⟨bytes,hread,hfull⟩))
      · have hne : bytes ≠ [] := by
          rintro rfl
          exact hfeeds k hk hw hread
        have hpos : 0 < bytes.length := List.length_pos_iff.mpr hne
        have hsum : (o.received (k+1) : ℤ) = o.received k + bytes.length := by simp [received,hread]
        have hempty : bytes.isEmpty = false := List.isEmpty_eq_false_iff.mpr hne
        have hnext : o.Reaches len (k+1) := by
          refine ⟨fun i hi => ?_,by omega⟩
          rcases Nat.lt_succ_iff_lt_or_eq.mp hi with hi | rfl
          · exact hk.goesOn i hi
          · exact ⟨hw,by simp [hread]⟩
        rw [ends_again hn hw hread (by omega),hempty,← hsum]
        exact ih (len - o.received (k+1)).toNat (by omega) hnext (by omega)
          ⟨by omega,hnext.short,hlen⟩ rfl

/-- Turn `k` is allowed in every run that progresses. -/
theorem ends_of_reaches (hlen : len < 2^31) (hk : o.Reaches len k)
    (h : Program.Ends o.paced (srl.recvFrom len ev 0 data) ⟨0,false⟩ post) :
    ∃ ev data, Program.Ends o.paced (srl.recvFrom len ev (o.received k) data) ⟨k,false⟩ post := by
  induction k with
  | zero => exact ⟨ev,data,h⟩
  | succ k ih =>
    have hstep := hk.goesOn k (Nat.lt_succ_self k)
    obtain ⟨bytes,hread⟩ := Option.ne_none_iff_exists'.mp hstep.2
    have hsum : (o.received (k+1) : ℤ) = o.received k + bytes.length := by simp [received,hread]
    have hshort := hk.short
    have hprev : o.Reaches len k := ⟨fun i hi => hk.goesOn i (by omega),by omega⟩
    obtain ⟨ev',data',hends⟩ := ih hprev
    rw [ends_again ⟨by omega,hprev.short,hlen⟩ hstep.1 hread (by omega)] at hends
    cases hempty : bytes.isEmpty with
    | true =>
      rw [hempty] at hends
      exact absurd hends not_ends_idle
    | false =>
      rw [hempty] at hends
      exact ⟨_,_,hsum ▸ hends⟩

/-- The loop makes progress as long as `read` gives at least a byte for every event. -/
theorem progresses_iff (hlen : 1 ≤ len ∧ len < 2^31) : o.Progresses srl len ev data ↔ o.Feeds len := by
  constructor
  · intro h k hk hw hread
    obtain ⟨ev',data',hends⟩ := ends_of_reaches hlen.2 hk h
    have hshort := hk.short
    rw [ends_again ⟨by omega,hshort,hlen.2⟩ hw hread (by simpa using hshort)] at hends
    exact not_ends_idle hends
  · intro h
    have hstart : o.Reaches len 0 := ⟨by simp,by simp only [received]; omega⟩
    exact ends_of_feeds h hlen.2 hstart (Nat.zero_le _)

/-- After a hang-up `epoll_wait` reports events for ever, and `read` the end of the file. -/
def HungUp (o : Outcomes) : Prop := ∀ k, o.waits k ≠ .timeout ∧ o.reads k = some []

theorem stream_answers (p : Pace) (c : SerialCall) : ∃ r, o.stream.answers p c r := by
  cases c with
  | epollWait epfd timeout => exact ⟨o.waits p.turns,rfl⟩
  | read fd off size => exact ⟨(o.reads (p.turns-1)).map (List.take size),rfl⟩
  | tcgets fd => exact ⟨none,trivial⟩
  | _ => exact ⟨(0 : ℤ),trivial⟩

/-- Then the loop never ends. -/
theorem hungUp_spins (h : o.HungUp) (hlen : 1 ≤ len) (p : Pace) :
    ¬ Program.Ends o.stream (srl.recvLoop len ev data) p post := by
  refine Program.Follows.not_ends ?_ fun p c _ => stream_answers p c
  refine Program.Follows.iterate (fun _ st => st.2.1 = 0) rfl ?_
  rintro p ⟨ev,n,data⟩ rfl
  -- a turn that reads nothing leads to the next one
  have hread {p : Pace} {ev : ℤ} :
      (SerialClass.recvChunk len ev 0 data).Follows o.stream p fun _ r =>
        ∃ st, r = .inl st ∧ st.2.1 = 0 := by
    refine Program.Follows.bind (.perform trivial fun got hgot => ?_)
    have hnil : got = some [] := by
      rw [hgot,(h _).2]
      simp
    have hempty : ¬ (0 : ℤ) ≥ len := by omega
    have hzero : toInt 0 = 0 := rfl
    subst hnil
    simp only [Option.elim_some,List.length_nil,Nat.cast_zero,hzero,add_zero,lt_self_iff_false,
      if_false,
      if_neg hempty]
    exact ⟨_,rfl,rfl⟩
  apply Program.Follows.bind
  refine Program.Follows.bind (.perform trivial fun w hw => ?_)
  cases w with
  | timeout => exact (h _).1 hw.symm
  | error =>
    apply hread.mono
    rintro _ r ⟨st,rfl,hst⟩
    exact hst
  | ready fd =>
    apply hread.mono
    rintro _ r ⟨st,rfl,hst⟩
    exact hst

def pulledOut : Outcomes := ⟨fun _ => .ready 3,fun _ => some []⟩

def oneByte : Outcomes := ⟨fun k => if k = 0 then .ready 3 else .timeout,fun _ => some [65]⟩

theorem progresses_iff_sample : oneByte.Progresses ⟨3,4,⟨0,0,0,0,fun _ => 0⟩⟩ 2 0 fun _ => 0 :=
  (progresses_iff (by decide)).mpr fun k _ _ => by simp [oneByte]

/-- A device that has been pulled out keeps the caller in the loop. -/
theorem pulledOut_spins : ¬ pulledOut.Progresses ⟨3,4,⟨0,0,0,0,fun _ => 0⟩⟩ 1 0 fun _ => 0 := by
  intro h
  have hturn : Program.Ends pulledOut.paced
    (SerialClass.recvFrom ⟨3,4,⟨0,0,0,0,fun _ => 0⟩⟩ 1 0 0 fun _ => 0)
      ⟨0,false⟩ fun p _ => (p.turns : ℤ) ≤ 1+1 := h
  rw [ends_again (by decide) (by simp [pulledOut]) rfl (by decide)] at hturn
  exact not_ends_idle hturn

end Outcomes
end LixRtos
