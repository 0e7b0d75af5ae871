import LixRtos.Serial

/-! What `serial_recv` makes of the answers of the line, whatever they are. -/
namespace LixRtos

/-- The registrations in the instances of epoll: the instance and `data.fd`. -/
abbrev Interest := List (ℤ × ℤ)

/-- Events belong to a registration, a new instance has none, and `read` gives as much as was
asked for at most. -/
def device : Program.Protocol SerialCall SerialCall.Answer Interest where
  allows _ _ := True
  answers s c r :=
    match c, r with
    | .epollCreate, epfd => 0 ≤ epfd → ∀ fd, (epfd,fd) ∉ s
    | .epollWait epfd _, w => ∀ fd, w = .ready fd → (epfd,fd) ∈ s
    | .read _ _ size, got => ∀ bytes, got = some bytes → bytes.length ≤ size
    | _, _ => True
  next s c r :=
    match c, r with
    | .epollAdd epfd _ fd, ret => if ret < 0 then s else (epfd,fd) :: s
    | _, _ => s

def SerialClass.Attached (srl : SerialClass) (s : Interest) : Prop :=
  ∀ fd, (srl.epfd,fd) ∈ s → fd = srl.fd

theorem SerialClass.serialInit_attached (srl : SerialClass) (dev : Path) (s : Interest) :
    (serialInit (some srl) (some dev)).Follows device s fun s' r =>
      r.1 = 0 → ∃ srl', r.2 = some srl' ∧ srl'.Attached s' := by
  have hfailed {srl' : SerialClass} {s' : Interest} :
      (-1 : ℤ) = 0 → ∃ srl'', some srl' = some srl'' ∧ srl''.Attached s' :=
        fun h => absurd h (by decide)
  refine ⟨trivial,fun fd _ => ?_⟩
  dsimp only [Program.ret_bind]
  split
  · exact hfailed
  refine ⟨trivial,fun tios _ =>
    ⟨trivial,fun _ _ => ⟨trivial,fun _ _ => ⟨trivial,fun epfd hnew => ?_⟩⟩⟩⟩
  dsimp only [Program.ret_bind]
  split
  · exact hfailed
  next hepfd =>
  refine ⟨trivial,fun ret _ => ?_⟩
  dsimp only [Program.ret_bind]
  split
  · exact hfailed
  next hret =>
  refine fun _ => ⟨_,rfl,fun fd' hmem => ?_⟩
  -- the new instance has this registration alone
  simp only [device,if_neg hret] at hmem
  rcases List.mem_cons.mp hmem with heq | hold
  · exact (Prod.mk.inj heq).2
  · exact absurd hold (hnew (not_lt.mp hepfd) fd')

structure Chunk where
  fd : ℤ
  off : ℤ
  bytes : Bytes
  deriving DecidableEq

def chunkOf : LineExchange → Option Chunk
  | ⟨.read fd off _,some bytes⟩ => some ⟨fd,off,bytes⟩
  | _ => none

def chunks (tr : List LineExchange) : List Chunk := tr.filterMap chunkOf

def waitOf : LineExchange → Option EpollWait
  | ⟨.epollWait _ _,w⟩ => some w
  | _ => none

def waits (tr : List LineExchange) : List EpollWait := tr.filterMap waitOf

/-- The chunks lie in the first `n` of `len` bytes, one behind the other, and nothing else has
changed. -/
structure Filled (len : ℤ) (data₀ : Buffer) (cs : List Chunk) (n : ℤ) (data : Buffer) : Prop where
  range : 0 ≤ n ∧ n ≤ len
  content : data.front n.toNat = (cs.map Chunk.bytes).flatten
  inside : ∀ c ∈ cs, 0 ≤ c.off ∧ c.off + c.bytes.length ≤ len
  rest : ∀ i, i < 0 ∨ n ≤ i → data i = data₀ i

variable {len n fd : ℤ} {data₀ data : Buffer} {cs : List Chunk} {bytes : Bytes}

theorem filled_nil (hlen : 0 ≤ len) (data : Buffer) : Filled len data [] 0 data :=
  ⟨⟨le_rfl,hlen⟩,rfl,by simp,fun _ _ => rfl⟩

theorem Buffer.store_of_lt {off i : ℤ} (data : Buffer) (bytes : Bytes) (h : i < off) :
    data.store off bytes i = data i := if_neg (by omega)

theorem Buffer.store_of_ge {off i : ℤ} (data : Buffer) (h : off + bytes.length ≤ i) :
    data.store off bytes i = data i := by
  have hout : bytes[(i-off).toNat]? = none := List.getElem?_eq_none (by omega)
  simp only [Buffer.store,hout,Option.getD_none,ite_self]

theorem Buffer.store_at {off : ℤ} {j : ℕ} (data : Buffer) (h : j < bytes.length) :
    data.store off bytes (off + j) = bytes[j] := by
  have hj : (off + (j : ℤ) - off).toNat = j := by omega
  rw [Buffer.store,if_pos (by omega),hj,List.getElem?_eq_getElem h,Option.getD_some]

theorem Buffer.front_store (data : Buffer) (k : ℕ) (bytes : Bytes) :
    (data.store k bytes).front (k + bytes.length) = data.front k ++ bytes := by
  rw [Buffer.front,List.range_add,List.map_append,List.map_map]
  congr 1
  · apply List.map_congr_left
    intro i hi
    exact data.store_of_lt bytes (by simpa using hi)
  · apply List.ext_getElem
    · simp
    · intro j _ hj
      have hread : data.store k bytes ((k : ℤ) + j) = bytes[j] := data.store_at hj
      simpa using hread

theorem Filled.store (h : Filled len data₀ cs n data) (hroom : bytes.length ≤ len - n) :
    Filled len data₀ (cs ++ [⟨fd,n,bytes⟩]) (n + bytes.length) (data.store n bytes) := by
  obtain ⟨hlo,hhi⟩ := h.range
  obtain ⟨k,rfl⟩ := Int.eq_ofNat_of_zero_le hlo
  refine ⟨⟨by omega,by omega⟩,?_,?_,?_⟩
  · have hk : ((k : ℤ) + bytes.length).toNat = k + bytes.length := by omega
    have hcontent := h.content
    rw [Int.toNat_natCast] at hcontent
    rw [hk,Buffer.front_store,hcontent]
    simp
  · intro c hc
    rcases List.mem_append.mp hc with hc | hc
    · exact h.inside c hc
    · obtain rfl := List.mem_singleton.mp hc
      exact ⟨hlo,by simp only; omega⟩
  · rintro i (hi | hi)
    · rw [data.store_of_lt bytes (by omega)]
      exact h.rest i (Or.inl hi)
    · rw [data.store_of_ge hi]
      exact h.rest i (Or.inr (by omega))

theorem chunks_append (tr tr' : List LineExchange) : chunks (tr ++ tr') = chunks tr ++ chunks tr' :=
  List.filterMap_append

/-- The run began with `begun`, and its chunks come from descriptors that are `ok`. -/
structure Receiving (len : ℤ) (data₀ : Buffer) (ok : ℤ → Prop) (s : Interest)
    (begun : List LineExchange)
    (a : Interest × List LineExchange) (n : ℤ) (data : Buffer) : Prop where
  interest : a.1 = s
  begins : begun <+: a.2
  source : ∀ c ∈ chunks a.2, ok c.fd
  filled : Filled len data₀ (chunks a.2) n data

variable {ok : ℤ → Prop} {s : Interest} {begun seen : List LineExchange}
  {a : Interest × List LineExchange}
  {srl : SerialClass} {ev : ℤ}

theorem Receiving.skip (h : Receiving len data₀ ok s begun a n data) {e : LineExchange}
    (he : chunkOf e = none) :
    Receiving len data₀ ok s begun (a.1,a.2 ++ [e]) n data := by
  have hchunks : chunks (a.2 ++ [e]) = chunks a.2 := by
    rw [chunks_append]
    simp [chunks,he]
  exact ⟨h.interest,h.begins.trans (List.prefix_append _ _),hchunks ▸ h.source,hchunks ▸ h.filled⟩

theorem recvChunk_follows (hlen : len < 2^31) (hfilled : Filled len data₀ (chunks a.2) n data) :
    (SerialClass.recvChunk len ev n data).Follows device.logged a fun a' r =>
      match r with
      | .inl (ev',n',data') => ev' = ev ∧ Filled len data₀ (chunks a'.2) n' data' ∧
          ∃ size bytes, a' = (a.1,a.2 ++ [⟨.read ev n size,some bytes⟩])
      | .inr (r,data') => 0 ≤ r → Filled len data₀ (chunks a'.2) r data' ∧
          ∃ size bytes, a' = (a.1,a.2 ++ [⟨.read ev n size,some bytes⟩]) := by
  obtain ⟨hlo,hhi⟩ := hfilled.range
  refine Program.Follows.bind (.perform trivial fun got hgot => ?_)
  cases got with
  | none => exact fun h => absurd h (by decide)
  | some bytes =>
    have hroom : bytes.length ≤ len - n := by
      have hle : bytes.length ≤ ((len - n) % 2^64).toNat := hgot bytes rfl
      omega
    have hres : toInt bytes.length = bytes.length := toInt_eq (by omega) (by omega)
    have hn : toInt (n + bytes.length) = n + bytes.length := toInt_eq (by omega) (by omega)
    have hnonneg : ¬ (bytes.length : ℤ) < 0 := by omega
    have hchunks : chunks (a.2 ++ [⟨.read ev n ((len - n) % 2^64).toNat,some bytes⟩]) =
        chunks a.2 ++ [⟨ev,n,bytes⟩] := chunks_append _ _
    have hnext : Filled len data₀ (chunks (a.2 ++ [⟨.read ev n ((len - n) % 2^64).toNat,some bytes⟩]))
        (n + bytes.length) (data.store n bytes) := hchunks ▸ hfilled.store hroom
    simp only [Option.getD_some,Option.elim_some,hres,hn,if_neg hnonneg]
    split
    · exact fun _ => ⟨hnext,_,_,rfl⟩
    · exact ⟨rfl,hnext,_,_,rfl⟩

theorem recvChunk_receiving (hlen : len < 2^31) (hev : ok ev)
    (h : Receiving len data₀ ok s begun a n data) :
    (SerialClass.recvChunk len ev n data).Follows device.logged a fun a' r =>
      match r with
      | .inl (ev',n',data') => ok ev' ∧ Receiving len data₀ ok s begun a' n' data'
      | .inr (r,data') => 0 ≤ r → Receiving len data₀ ok s begun a' r data' := by
  have hsource {size : ℕ} {bytes : Bytes} :
      ∀ c ∈ chunks (a.2 ++ [⟨.read ev n size,some bytes⟩]), ok c.fd := by
    intro c hc
    rw [chunks_append] at hc
    rcases List.mem_append.mp hc with hc | hc
    · exact h.source c hc
    · obtain rfl : c = ⟨ev,n,bytes⟩ := List.mem_singleton.mp hc
      exact hev
  apply (recvChunk_follows hlen h.filled).mono
  rintro a' (⟨ev',n',data'⟩ | ⟨r,data'⟩) hpost
  · obtain ⟨rfl,hfilled,size,bytes,rfl⟩ := hpost
    exact ⟨hev,h.interest,h.begins.trans (List.prefix_append _ _),hsource,hfilled⟩
  · intro hr
    obtain ⟨hfilled,size,bytes,rfl⟩ := hpost hr
    exact ⟨h.interest,h.begins.trans (List.prefix_append _ _),hsource,hfilled⟩

theorem recvTurn_follows (hlen : len < 2^31) (hat : srl.Attached s) (hok : ok srl.fd) (hev : ok ev)
    (h : Receiving len data₀ ok s begun a n data) :
    (srl.recvTurn len ev n data).Follows device.logged a fun a' r =>
      match r with
      | .inl (ev',n',data') => ok ev' ∧ Receiving len data₀ ok s begun a' n' data'
      | .inr (r,data') => 0 ≤ r → Receiving len data₀ ok s begun a' r data' := by
  apply Program.Follows.bind
  refine Program.Follows.bind (.perform trivial fun w hw => ?_)
  cases w with
  | error => exact recvChunk_receiving hlen hev (h.skip rfl)
  | timeout => exact fun _ => h.skip rfl
  | ready fd =>
    obtain rfl : fd = srl.fd := hat fd (h.interest ▸ hw fd rfl)
    exact recvChunk_receiving hlen hok (h.skip rfl)

theorem recvLoop_follows (hlen : len < 2^31) (hat : srl.Attached s) (hok : ok srl.fd) (hev : ok ev)
    (h : Receiving len data₀ ok s begun a 0 data) :
    (srl.recvLoop len ev data).Follows device.logged a fun a' r =>
      0 ≤ r.1 → Receiving len data₀ ok s begun a' r.1 r.2 := by
  apply Program.Follows.iterate (fun a st => ok st.1 ∧
    Receiving len data₀ ok s begun a st.2.1 st.2.2) ⟨hev,h⟩
  rintro a ⟨ev,n,data⟩ ⟨hev,h⟩
  apply (recvTurn_follows hlen hat hok hev h).mono
  rintro a' (⟨ev',n',data'⟩ | ⟨r,data'⟩) hpost
  · exact hpost
  · exact hpost

/-- The first two calls of `epoll_wait` have failed, so that the event is still zero. -/
def Blind (tr : List LineExchange) : Prop := (waits tr).take 2 = [.error,.error]

theorem waits_of_prefix {tr : List LineExchange} {ws : List EpollWait} (h : begun <+: tr)
    (hws : waits begun = ws) :
    ∃ rest, waits tr = ws ++ rest := by
  obtain ⟨rest,rfl⟩ := h
  exact ⟨waits rest,by rw [← hws]; exact List.filterMap_append⟩

structure Origin (fd : ℤ) (tr : List LineExchange) : Prop where
  seeing : ¬ Blind tr → ∀ c ∈ chunks tr, c.fd = fd
  blind : Blind tr → ∃ c ∈ chunks tr, c.fd = 0
  either : ∀ c ∈ chunks tr, c.fd = fd ∨ c.fd = 0

theorem origin_of_seeing {tr : List LineExchange} (hblind : ¬ Blind tr)
    (h : ∀ c ∈ chunks tr, c.fd = fd) :
    Origin fd tr :=
  ⟨fun _ => h,fun hb => absurd hb hblind,fun c hc => Or.inl (h c hc)⟩

/-- Such a beginning and such descriptors decide where the chunks come from. -/
def Settles (fd : ℤ) (ok : ℤ → Prop) (begun : List LineExchange) : Prop :=
  ∀ tr, begun <+: tr → (∀ c ∈ chunks tr, ok c.fd) → Origin fd tr

theorem settles_seeing {ws : List EpollWait} (hws : waits begun = ws)
    (hnot : ∀ rest, (ws ++ rest).take 2 ≠ [.error,.error]) : Settles fd (· = fd) begun := by
  intro tr hbegins hsource
  obtain ⟨rest,hrest⟩ := waits_of_prefix hbegins hws
  have hblind : ¬ Blind tr := by
    rw [Blind,hrest]
    exact hnot rest
  exact origin_of_seeing hblind hsource

theorem settles_blind {e : LineExchange} {c : Chunk} (hws : waits begun = [.error,.error])
    (he : chunkOf e = some c)
    (hc : c.fd = 0) : Settles fd (fun x => x = fd ∨ x = 0) (begun ++ [e]) := by
  intro tr hbegins hsource
  have hblind : Blind tr := by
    obtain ⟨rest,hrest⟩ := waits_of_prefix ((List.prefix_append begun [e]).trans hbegins) hws
    rw [Blind,hrest]
    rfl
  have hmem : c ∈ chunks tr := by
    obtain ⟨rest,rfl⟩ := hbegins
    apply List.mem_filterMap.mpr
    exact ⟨e,by simp,he⟩
  exact ⟨fun h => absurd hblind h,fun _ => ⟨c,hmem,hc⟩,hsource⟩

/-- What `serial_recv` leaves when it returns a length. -/
def Received (s : Interest) (fd len : ℤ) (data₀ : Buffer) (a : Interest × List LineExchange) (r : ℤ)
    (data : Buffer) : Prop :=
  0 ≤ r → a.1 = s ∧ Filled len data₀ (chunks a.2) r data ∧ Origin fd a.2

theorem Receiving.received (hset : Settles fd ok begun) (h : Receiving len data₀ ok s begun a n data) :
    a.1 = s ∧ Filled len data₀ (chunks a.2) n data ∧ Origin fd a.2 :=
  ⟨h.interest,h.filled,hset a.2 h.begins h.source⟩

theorem recvLoop_seeing (hlen : len < 2^31) (hat : srl.Attached s) {ws : List EpollWait}
    (hws : waits begun = ws)
    (hnot : ∀ rest, (ws ++ rest).take 2 ≠ [.error,.error])
    (h : Receiving len data₀ (· = srl.fd) s begun a 0 data) :
    (srl.recvLoop len srl.fd data).Follows device.logged a fun a' r =>
      Received s srl.fd len data₀ a' r.1 r.2 :=
  (recvLoop_follows hlen hat (by rfl) (by rfl) h).mono fun _ _ hpost hr =>
    (hpost hr).received (settles_seeing hws hnot)

theorem recvChunk_blind (hlen : 0 ≤ len ∧ len < 2^31) (hws : waits begun = [.error,.error])
    (hnone : chunks begun = []) :
    (SerialClass.recvChunk len 0 0 data).Follows device.logged (s,begun) fun a' r =>
      match r with
      | .inl (ev',n',data') => ∃ ok begun', ok fd ∧ ok ev' ∧ Settles fd ok begun' ∧
          Receiving len data ok s begun' a' n' data'
      | .inr (r,data') => Received s fd len data a' r data' := by
  have hread {size : ℕ} {bytes : Bytes} {n : ℤ} {data' : Buffer}
      (hfilled : Filled len data (chunks (begun ++ [⟨.read 0 0 size,some bytes⟩])) n data') :
      Settles fd (fun x => x = fd ∨ x = 0) (begun ++ [⟨.read 0 0 size,some bytes⟩]) ∧
        Receiving len data (fun x => x = fd ∨ x = 0) s (begun ++ [⟨.read 0 0 size,some bytes⟩])
          (s,begun ++ [⟨.read 0 0 size,some bytes⟩]) n data' := by
    refine ⟨settles_blind hws rfl rfl,rfl,List.prefix_refl _,?_,hfilled⟩
    intro c hc
    rw [chunks_append,hnone] at hc
    obtain rfl : c = ⟨0,0,bytes⟩ := List.mem_singleton.mp hc
    exact Or.inr rfl
  have hfilled : Filled len data (chunks begun) 0 data := hnone ▸ filled_nil hlen.1 data
  apply (recvChunk_follows (a := (s,begun)) hlen.2 hfilled).mono
  rintro a' (⟨ev',n',data'⟩ | ⟨r,data'⟩) hpost
  · obtain ⟨rfl,hnext,size,bytes,rfl⟩ := hpost
    obtain ⟨hset,hrec⟩ := hread hnext
    exact ⟨_,_,Or.inl rfl,Or.inr rfl,hset,hrec⟩
  · intro hr
    obtain ⟨hnext,size,bytes,rfl⟩ := hpost hr
    obtain ⟨hset,hrec⟩ := hread hnext
    exact hrec.received hset

/-- The loop behind a first call of `epoll_wait` that has failed. -/
theorem recvLoop_blind (hlen : 0 ≤ len ∧ len < 2^31) (hat : srl.Attached s) {e : LineExchange}
    (he : waitOf e = some .error) (hchunk : chunkOf e = none) :
    (srl.recvLoop len 0 data).Follows device.logged (s,[e]) fun a r =>
      Received s srl.fd len data a r.1 r.2 := by
  have hwaits {t : LineExchange} {w : EpollWait} (ht : waitOf t = some w) :
      waits [e,t] = [.error,w] := by
    simp [waits,he,ht]
  have hchunks {t : LineExchange} (ht : chunkOf t = none) : chunks [e,t] = [] := by
    simp [chunks,hchunk,ht]
  have hstart {ok : ℤ → Prop} {t : LineExchange} (ht : chunkOf t = none) :
      Receiving len data ok s [e,t] (s,[e,t]) 0 data := by
    refine ⟨rfl,List.prefix_refl _,?_,?_⟩
    · simp [hchunks ht]
    · rw [hchunks ht]
      exact filled_nil hlen.1 data
  apply Program.Follows.iterate_first (fun a st => ∃ ok begun, ok srl.fd ∧ ok st.1 ∧
    Settles srl.fd ok begun ∧
    Receiving len data ok s begun a st.2.1 st.2.2)
  · -- the event may still be zero here
    apply Program.Follows.bind
    refine Program.Follows.bind (.perform trivial fun w hw => ?_)
    cases w with
    | timeout =>
      exact fun _ => (hstart (t := ⟨.epollWait srl.epfd 2,.timeout⟩) rfl).received
        (settles_seeing (hwaits rfl) (by simp))
    | ready fd =>
      obtain rfl : fd = srl.fd := hat fd (hw fd rfl)
      have hset : Settles srl.fd (· = srl.fd) [e,⟨.epollWait srl.epfd 2,.ready srl.fd⟩] :=
        settles_seeing (hwaits rfl) (by simp)
      have hbegin : Receiving len data (· = srl.fd) s [e,⟨.epollWait srl.epfd 2,.ready srl.fd⟩]
        (s,[e,⟨.epollWait srl.epfd 2,.ready srl.fd⟩]) 0 data := hstart rfl
      apply (recvChunk_receiving hlen.2 (by rfl) hbegin).mono
      rintro a' (⟨ev',n',data'⟩ | ⟨r,data'⟩) hpost
      · exact ⟨(· = srl.fd),_,rfl,hpost.1,hset,hpost.2⟩
      · exact fun hr => (hpost hr).received hset
    | error =>
      apply (recvChunk_blind hlen (hwaits rfl) (hchunks rfl)).mono
      rintro a' (⟨ev',n',data'⟩ | ⟨r,data'⟩) hpost
      · exact hpost
      · exact hpost
  · rintro a ⟨ev,n,data'⟩ ⟨ok,begun,hok,hev,hset,h⟩
    apply (recvTurn_follows hlen.2 hat hok hev h).mono
    rintro a' (⟨ev',n',data'⟩ | ⟨r,data'⟩) hpost
    · exact ⟨ok,begun,hok,hpost.1,hset,hpost.2⟩
    · exact fun hr => (hpost hr).received hset

theorem serialRecv_follows (hlen : 0 ≤ len ∧ len < 2^31) (hat : srl.Attached s) :
    (SerialClass.serialRecv (some srl) (some data) len).Follows device.logged (s,[]) fun a r =>
      ∃ data', r.2 = some data' ∧ Received s srl.fd len data a r.1 data' := by
  apply Program.Follows.bind
  refine Program.Follows.bind (.perform trivial fun w hw => ?_)
  cases w with
  | timeout => exact ⟨data,rfl,fun h => absurd h (show ¬ (0 : ℤ) ≤ -1 by decide)⟩
  | ready fd =>
    obtain rfl : fd = srl.fd := hat fd (hw fd rfl)
    have hstart : Receiving len data (· = srl.fd) s [⟨.epollWait srl.epfd 1000,.ready srl.fd⟩]
        (s,[⟨.epollWait srl.epfd 1000,.ready srl.fd⟩]) 0 data :=
      ⟨rfl,List.prefix_refl _,by simp [chunks,chunkOf],filled_nil hlen.1 data⟩
    apply Program.Follows.bind
    apply (recvLoop_seeing hlen.2 hat rfl (by simp [waits,waitOf]) hstart).mono
    exact fun a r hpost => ⟨r.2,rfl,hpost⟩
  | error =>
    apply Program.Follows.bind
    apply (recvLoop_blind hlen hat rfl rfl).mono
    exact fun a r hpost => ⟨r.2,rfl,hpost⟩

/-- The bytes of the chunks, and nothing else, are in the first `r` bytes, and the line has sent
them. -/
structure Reassembled (fd len : ℤ) (data₀ : Buffer) (cs : List Chunk) (r : ℤ) (data : Buffer) : Prop
    extends Filled len data₀ cs r data where
  source : ∀ c ∈ cs, c.fd = fd

/-- Only after two failures of `epoll_wait` is another descriptor read. -/
theorem reassembled_iff {tr : List LineExchange} {r : ℤ} {data' : Option Buffer}
    (hlen : 0 ≤ len ∧ len < 2^31)
    (hat : srl.Attached s)
    (hrun : Program.Yields (SerialClass.serialRecv (some srl) (some data) len) tr (r,data'))
    (hacc : device.Accepts s tr) (hr : 0 ≤ r) :
    (∃ d, data' = some d ∧ Reassembled srl.fd len data (chunks tr) r d) ↔ srl.fd = 0 ∨ ¬ Blind tr := by
  obtain ⟨d,rfl,hreceived⟩ := (serialRecv_follows hlen hat).of_logged hrun hacc
  obtain ⟨-,hfilled,horigin⟩ := hreceived hr
  constructor
  · rintro ⟨d',-,hre⟩
    by_contra hnot
    obtain ⟨hfd,hblind⟩ := not_or.mp hnot
    obtain ⟨c,hc,hzero⟩ := horigin.blind (not_not.mp hblind)
    exact hfd (by rw [← hre.source c hc,hzero])
  · intro h
    refine ⟨d,rfl,hfilled,fun c hc => ?_⟩
    rcases h with hzero | hseeing
    · rcases horigin.either c hc with hfd | hfd
      · exact hfd
      · rw [hfd,hzero]
    · exact horigin.seeing hseeing c hc

def sampleLine : SerialClass := ⟨3,4,⟨0,0,0,0,fun _ => 0⟩⟩

theorem sampleLine_attached : sampleLine.Attached [(4,3)] := by
  intro fd h
  simpa [sampleLine] using h

/-- Both calls of `epoll_wait` are interrupted, and then one byte of descriptor 0 is read. -/
def signalTrace : List LineExchange :=
  [⟨.epollWait 4 1000,.error⟩,⟨.epollWait 4 2,.error⟩,⟨.read 0 0 1,some [65]⟩]

theorem signalTrace_accepts : device.Accepts [(4,3)] signalTrace := by
  refine ⟨nofun,nofun,fun bytes h => ?_,trivial⟩
  rw [← Option.some.inj h]
  decide

theorem signalTrace_yields :
    Program.Yields (SerialClass.serialRecv (some sampleLine) (some fun _ => 0) 1) signalTrace
      (1,some (Buffer.store (fun _ => 0) 0 [65])) := by
  apply Program.Yields.call
  apply Program.Yields.loop
  apply Program.Yields.call
  apply Program.Yields.call
  apply Program.Yields.ret

/-- Two chunks of the line, with a signal before the first one, and then nothing for two
milliseconds. -/
def chunkTrace : List LineExchange :=
  [⟨.epollWait 4 1000,.ready 3⟩,⟨.epollWait 4 2,.error⟩,⟨.read 3 0 4,some [65,66]⟩,
    ⟨.epollWait 4 2,.ready 3⟩,
    ⟨.read 3 2 2,some [67]⟩,⟨.epollWait 4 2,.timeout⟩]

theorem chunkTrace_accepts : device.Accepts [(4,3)] chunkTrace := by
  have hready (fd : ℤ) (h : EpollWait.ready 3 = .ready fd) : (4,fd) ∈ [((4 : ℤ),(3 : ℤ))] := by
    rw [← EpollWait.ready.inj h]
    decide
  refine ⟨hready,nofun,fun bytes h => ?_,hready,fun bytes h => ?_,nofun,trivial⟩
  · rw [← Option.some.inj h]
    decide
  · rw [← Option.some.inj h]
    decide

theorem chunkTrace_yields :
    Program.Yields (SerialClass.serialRecv (some sampleLine) (some fun _ => 0) 4) chunkTrace
      (3,some (Buffer.store (Buffer.store (fun _ => 0) 0 [65,66]) 2 [67])) := by
  apply Program.Yields.call
  apply Program.Yields.loop
  apply Program.Yields.call
  apply Program.Yields.call
  apply Program.Yields.loop
  apply Program.Yields.call
  apply Program.Yields.call
  apply Program.Yields.loop
  apply Program.Yields.call
  apply Program.Yields.ret

theorem reassembled_iff_sample :
    ∃ d, some (Buffer.store (Buffer.store (fun _ => 0) 0 [65,66]) 2 [67]) = some d ∧
      Reassembled 3 4 (fun _ => 0) [⟨3,0,[65,66]⟩,⟨3,2,[67]⟩] 3 d :=
  (reassembled_iff (by decide) sampleLine_attached chunkTrace_yields chunkTrace_accepts
    (by decide)).mpr
    (Or.inr (by rw [Blind]; decide))

/-- After two signals a byte of the standard input is returned. -/
theorem interrupted_reads_stdin : ¬ ∀ (s : Interest) (srl : SerialClass) (data : Buffer) (len r : ℤ)
    (tr : List LineExchange) (data' : Option Buffer), 0 ≤ len ∧ len < 2^31 → srl.Attached s →
      Program.Yields (SerialClass.serialRecv (some srl) (some data) len) tr (r,data') →
        device.Accepts s tr →
        0 ≤ r → ∃ d, data' = some d ∧ Reassembled srl.fd len data (chunks tr) r d := by
  intro h
  obtain ⟨d,-,hre⟩ := h [(4,3)] sampleLine (fun _ => 0) 1 1 signalTrace _ (by decide)
    sampleLine_attached
    signalTrace_yields signalTrace_accepts (by decide)
  exact absurd (hre.source ⟨0,0,[65]⟩ (by decide)) (by decide)

end LixRtos
