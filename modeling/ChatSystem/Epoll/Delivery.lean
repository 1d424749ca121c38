import ChatSystem.Epoll.Requests

/-!
# Acknowledged deliveries of the epoll server

`slot_send` does not report whether its message found room in the send buffer, so the
acknowledgement of a relayed message says nothing about its delivery. The message reaches
exactly the targets whose pending bytes leave room for it.
-/

namespace ChatSystem.Epoll

open Transition

/-- The slots a relayed message is for. -/
def Target (a : Server) (s : Slot) (m : Message) (t : Slot) : Prop :=
  (m.kind = some .broadcast ∧ t ≠ s ∧ (a.clients t).active = true) ∨
    (m.kind = some .priv ∧ a.findByUser m.receiver.toList = some t)

/-- `process_message` replies with an acknowledgement. -/
def Acked (env : Env) (a : Server) (s : Slot) (m : Message) : Prop :=
  ∃ n, (a.processMessage env s m).log.getLast? =
    some (.queued (a.connOf s) (relayed env.now m) n)

/-- Unless the socket of slot `t` reported a permanent error, the whole frame of `m` is behind
the bytes written to it and stored for it. -/
def Accepted (a b : Server) (t : Slot) (m : Message) : Prop :=
  ∀ c, a.connOf t = some c → b.kernel.broken c = false →
    a.kernel.wire c ++ (a.clients t).sbuf.pending ++ packMessage m <+:
      b.kernel.wire c ++ (b.clients t).sbuf.pending

/-- Unless the socket of slot `t` reported a permanent error, the bytes pending for it leave
room for the frame of `m`. -/
def HasRoom (a : Server) (t : Slot) (m : Message) : Prop :=
  ∀ c, a.connOf t = some c → a.kernel.broken c = false →
    (a.clients t).sbuf.pending.length + (packMessage m).length ≤ sbufSize

variable {srv a b : Server} {env : Env} {s t : Slot} {c : Nat} {m : Message}

/-! ## One call of `slot_send` -/

theorem log_slotSend (a : Server) (s : Slot) (m : Message) : (a.slotSend s m).log =
    a.log ++ [.queued (a.connOf s) m (a.clients s).sbuf.pending.length] := by
  cases he : sbEmpty (a.clients s).sbuf with
  | true =>
    have hslot := slotSend_of_empty m he
    simp only at hslot
    rw [hslot]
    split <;> rfl
  | false =>
    rw [slotSend_of_nonempty m he]
    rfl

theorem callsOf_slotSend (hc : a.connOf s = some c) (m : Message) :
    callsOf c (a.slotSend s m).log =
      callsOf c a.log ++ [(m, (a.clients s).sbuf.pending.length)] := by
  rw [log_slotSend, callsOf_append, hc]
  simp [callsOf]

theorem callsOf_slotSend_of_ne (hc : a.connOf s ≠ some c) (m : Message) :
    callsOf c (a.slotSend s m).log = callsOf c a.log := by
  rw [log_slotSend, callsOf_append]
  cases hs : a.connOf s with
  | none => simp [callsOf]
  | some d =>
    have hd : d ≠ c := by
      rintro rfl
      exact hc hs
    simp [callsOf, hd]

theorem kernel_slotSend_of_nonempty (he : sbEmpty (a.clients s).sbuf = false) (m : Message) :
    (a.slotSend s m).kernel.wire = a.kernel.wire ∧
      (a.slotSend s m).kernel.broken = a.kernel.broken := by
  rw [slotSend_of_nonempty m he, Server.wire_pushAndArm, Server.broken_pushAndArm]
  exact ⟨rfl, rfl⟩

theorem kernel_slotSend_of_empty (he : sbEmpty (a.clients s).sbuf = true) (m : Message) :
    (a.slotSend s m).kernel.wire =
        (a.kernel.writeAll (a.clients s).fd (packMessage m)).2.2.wire ∧
      (a.slotSend s m).kernel.broken =
        (a.kernel.writeAll (a.clients s).fd (packMessage m)).2.2.broken := by
  have hslot := slotSend_of_empty m he
  simp only at hslot
  rw [hslot]
  split
  · rw [Server.wire_pushAndArm, Server.broken_pushAndArm]
    exact ⟨rfl, rfl⟩
  · exact ⟨rfl, rfl⟩

/-- A permanent error stays. -/
theorem broken_slotSend (h : a.kernel.broken c = true) (s : Slot) (m : Message) :
    (a.slotSend s m).kernel.broken c = true := by
  cases he : sbEmpty (a.clients s).sbuf with
  | false => rw [(kernel_slotSend_of_nonempty he m).2, h]
  | true =>
    rw [(kernel_slotSend_of_empty he m).2]
    by_cases hc : a.connOf s = some c
    · have hspec := (Kernel.writeAll_spec hc (packMessage m)).2.2
      by_contra hb
      rw [Bool.not_eq_true] at hb
      rw [h] at hspec
      cases (hspec hb).1
    · rw [(Kernel.writeAll_other hc (packMessage m)).2, h]

/-- A connection with bytes pending, to which nothing more was written than `w`. -/
structure Backlog (t : Slot) (c : Nat) (w : List UInt8) (e : Bool) (a : Server) : Prop where
  ok : OutputOk a
  conn : a.connOf t = some c
  pending : (a.clients t).sbuf.pending ≠ []
  wire : a.kernel.wire c = w
  broken : a.kernel.broken c = e

/-- While bytes are pending for a connection, queueing writes nothing to it. -/
theorem Backlog.slotSend {w : List UInt8} {e : Bool} (h : Backlog t c w e a) (i : Slot)
    (m : Message) : Backlog t c w e (a.slotSend i m) := by
  have hconn : (a.slotSend i m).connOf t = some c := by
    rw [(OutputOnly.slotSend a i m).connOf, h.conn]
  by_cases hi : i = t
  · subst hi
    have he : sbEmpty (a.clients i).sbuf = false := by
      rw [← Bool.not_eq_true, (h.ok.buf i).sbEmpty_iff]
      exact h.pending
    refine ⟨h.ok.slotSend i m, hconn, ?_, ?_, ?_⟩
    · rw [slotSend_of_nonempty m he, Server.sbuf_pushAndArm]
      change (sbPush (a.clients i).sbuf (packMessage m)).2.pending ≠ []
      rw [((h.ok.buf i).push (packMessage m)).2.2]
      split
      · exact fun hn => h.pending (List.append_eq_nil_iff.mp hn).1
      · exact h.pending
    · rw [(kernel_slotSend_of_nonempty he m).1, h.wire]
    · rw [(kernel_slotSend_of_nonempty he m).2, h.broken]
  · have hne : a.connOf i ≠ some c := fun hc => hi (h.ok.inj i t c hc h.conn)
    obtain ⟨hw, hb⟩ := Kernel.writeAll_other hne (packMessage m)
    cases he : sbEmpty (a.clients i).sbuf with
    | false =>
      obtain ⟨kw, kb⟩ := kernel_slotSend_of_nonempty he m
      exact ⟨h.ok.slotSend i m, hconn, by rw [sbuf_slotSend_of_ne a (Ne.symm hi)]; exact h.pending,
        by rw [kw, h.wire], by rw [kb, h.broken]⟩
    | true =>
      obtain ⟨kw, kb⟩ := kernel_slotSend_of_empty he m
      exact ⟨h.ok.slotSend i m, hconn, by rw [sbuf_slotSend_of_ne a (Ne.symm hi)]; exact h.pending,
        by rw [kw, hw, h.wire], by rw [kb, hb, h.broken]⟩

/-! ## The loop over the other slots -/

/-- The loop calls `slot_send` once for every other active slot. -/
theorem callsOf_sendOthers (h : OutputOk a) (hc : a.connOf t = some c)
    (ht : t ≠ s ∧ (a.clients t).active = true) (m : Message) :
    callsOf c (a.sendOthers s m).log =
      callsOf c a.log ++ [(m, (a.clients t).sbuf.pending.length)] := by
  have hall : ∀ (is : List Slot), is.Nodup → ∀ b, OutputOk b → b.connOf t = some c →
      (b.clients t).active = true →
      callsOf c (is.foldl (fun srv i => if i ≠ s ∧ (srv.clients i).active then srv.slotSend i m
        else srv) b).log = callsOf c b.log ++
          if t ∈ is then [(m, (b.clients t).sbuf.pending.length)] else [] := by
    intro is
    induction is with
    | nil => simp
    | cons i is ih =>
      intro hnd b hb hbc hba
      obtain ⟨hi, hnd⟩ := List.nodup_cons.mp hnd
      have hsend := OutputOnly.slotSend b i m
      rw [List.foldl_cons]
      by_cases hit : i = t
      · subst hit
        rw [if_pos ⟨ht.1, hba⟩, ih hnd _ (hb.slotSend i m) (by rw [hsend.connOf, hbc])
          (by rw [hsend.entry, hba]), callsOf_slotSend hbc, if_neg hi, if_pos List.mem_cons_self,
          List.append_nil]
      · have hmem : t ∈ i :: is ↔ t ∈ is := by
          rw [List.mem_cons]
          exact or_iff_right (Ne.symm hit)
        split
        · have hne : b.connOf i ≠ some c := fun h' => hit (hb.inj i t c h' hbc)
          rw [ih hnd _ (hb.slotSend i m) (by rw [hsend.connOf, hbc]) (by rw [hsend.entry, hba]),
            callsOf_slotSend_of_ne hne, sbuf_slotSend_of_ne b (Ne.symm hit)]
          simp only [hmem]
        · rw [ih hnd b hb hbc hba]
          simp only [hmem]
  rw [Server.sendOthers, hall _ (List.nodup_finRange _) a h hc ht.2,
    if_pos (List.mem_finRange t)]

/-! ## Relaying -/

/-- The state in which a request is relayed: recorded, and stored in the history. -/
def Server.relaying (a : Server) (env : Env) (s : Slot) (m : Message) (receiver : List UInt8) :
    Server :=
  { a.note (.processed (a.connOf s) m) with history := a.history.save env.host m receiver }

theorem processMessage_broadcast (hactive : (a.clients s).active = true)
    (hm : m.kind = some .broadcast) : a.processMessage env s m =
      ((a.relaying env s m []).sendOthers s m).slotSend s (relayed env.now m) := by
  rw [Server.processMessage]
  simp only [hm]
  rw [Server.broadcast, if_neg (by
    change ¬ (!(a.clients s).active) = true
    rw [hactive]
    decide)]
  rfl

theorem processMessage_priv (hactive : (a.clients s).active = true) (hm : m.kind = some .priv)
    (ht : a.findByUser m.receiver.toList = some t) : a.processMessage env s m =
      ((a.relaying env s m m.receiverStr).slotSend t m).slotSend s (relayed env.now m) := by
  have hfind : (a.note (.processed (a.connOf s) m)).findByUser m.receiver.toList = some t := ht
  rw [Server.processMessage]
  simp only [hm]
  rw [Server.priv, if_neg (by
    change ¬ (!(a.clients s).active) = true
    rw [hactive]
    decide), hfind]
  rfl

theorem sameOutput_relaying (a : Server) (env : Env) (s : Slot) (m : Message)
    (receiver : List UInt8) : SameOutput a (a.relaying env s m receiver) :=
  ⟨fun _ => rfl, fun _ => rfl, rfl, rfl, rfl, rfl, (sameOutput_note rfl).calls⟩

/-- What every single `slot_send` keeps, relaying keeps. -/
theorem relay_invariant {P : Server → Prop} (hsend : ∀ b i m, P b → P (b.slotSend i m))
    (hactive : (a.clients s).active = true) (ht : Target a s m t)
    (h : ∀ receiver, P (a.relaying env s m receiver)) : P (a.processMessage env s m) := by
  rcases ht with ⟨hm, -, -⟩ | ⟨hm, ht⟩
  · rw [processMessage_broadcast hactive hm]
    exact hsend _ _ _ (Server.sendOthers_invariant (fun b i => hsend b i m) (h []))
  · rw [processMessage_priv hactive hm ht]
    exact hsend _ _ _ (hsend _ _ _ (h _))

/-- A request with a target is acknowledged. -/
theorem acked_of_target (hactive : (a.clients s).active = true) (ht : Target a s m t) :
    Acked env a s m := by
  have hlast : ∀ (b : Server), b.connOf s = a.connOf s → ∃ n,
      (b.slotSend s (relayed env.now m)).log.getLast? =
        some (.queued (a.connOf s) (relayed env.now m) n) := by
    intro b hb
    rw [log_slotSend, hb]
    exact ⟨_, List.getLast?_concat⟩
  rcases ht with ⟨hm, -, -⟩ | ⟨hm, ht⟩
  · rw [Acked, processMessage_broadcast hactive hm]
    apply hlast
    rw [(OutputOnly.sendOthers _ _ _).connOf, (sameOutput_relaying a env s m []).connOf]
  · rw [Acked, processMessage_priv hactive hm ht]
    apply hlast
    rw [(OutputOnly.slotSend _ _ _).connOf, (sameOutput_relaying a env s m _).connOf]

/-- The calls of `slot_send` for the connection of a target: the message, and the
acknowledgement behind it if the target is the sender. -/
theorem callsOf_relay (env : Env) (h : OutputOk a) (hactive : (a.clients s).active = true)
    (ht : Target a s m t) (hc : a.connOf t = some c) : ∃ acks,
      callsOf c (a.processMessage env s m).log =
        callsOf c a.log ++ (m, (a.clients t).sbuf.pending.length) :: acks ∧
      acks.length ≤ 1 ∧ ∀ x ∈ acks, x.1 = relayed env.now m ∧ m.kind = some .priv := by
  have hrelay := sameOutput_relaying a env s m
  rcases ht with ⟨hm, hts, hta⟩ | ⟨hm, ht⟩
  · have hb := h.same (hrelay [])
    have hconn : ((a.relaying env s m []).sendOthers s m).connOf s ≠ some c := by
      rw [(OutputOnly.sendOthers _ _ _).connOf, (hrelay []).connOf]
      exact fun hs => hts (h.inj t s c hc hs)
    refine ⟨[], ?_, Nat.zero_le _, fun _ hx => absurd hx List.not_mem_nil⟩
    rw [processMessage_broadcast hactive hm, callsOf_slotSend_of_ne hconn,
      callsOf_sendOthers hb ((hrelay []).connOf t ▸ hc) ⟨hts, hta⟩ m, (hrelay []).calls]
    rfl
  · have hcr : (a.relaying env s m m.receiverStr).connOf t = some c :=
      ((hrelay _).connOf t).trans hc
    have hsent := callsOf_slotSend hcr m
    rw [(hrelay m.receiverStr).calls] at hsent
    have hconn : ∀ i, ((a.relaying env s m m.receiverStr).slotSend t m).connOf i = a.connOf i := by
      intro i
      rw [(OutputOnly.slotSend _ _ _).connOf, (hrelay _).connOf]
    rw [processMessage_priv hactive hm ht]
    by_cases hs : a.connOf s = some c
    · refine ⟨[(relayed env.now m,
        (((a.relaying env s m m.receiverStr).slotSend t m).clients s).sbuf.pending.length)],
        ?_, Nat.le_refl _, ?_⟩
      · rw [callsOf_slotSend ((hconn s).trans hs), hsent, List.append_assoc]
        rfl
      · intro x hx
        rw [List.mem_singleton.mp hx]
        exact ⟨rfl, hm⟩
    · refine ⟨[], ?_, Nat.zero_le _, fun _ hx => absurd hx List.not_mem_nil⟩
      rw [callsOf_slotSend_of_ne (by rw [hconn]; exact hs), hsent]
      rfl

/-- A private message does not start like an acknowledgement. -/
theorem not_prefix_relayed (hm : m.kind = some .priv) (now : UInt64) :
    ¬ packMessage m <+: packMessage (relayed now m) := by
  rintro ⟨rest, h⟩
  have hhead := congrArg List.head? h
  have htype : m.type = 0x21 := MsgType.code_of_ofCode? hm
  simp only [packMessage, packHeader, htype] at hhead
  cases hhead

theorem OutputOk.relay (h : OutputOk a) (hactive : (a.clients s).active = true)
    (ht : Target a s m t) : OutputOk (a.processMessage env s m) :=
  relay_invariant (fun _ i m hb => hb.slotSend i m) hactive ht
    fun receiver => h.same (sameOutput_relaying a env s m receiver)

/-- A permanent error reported before a relay is still there behind it. -/
theorem unbroken_of_relay (hactive : (a.clients s).active = true) (ht : Target a s m t)
    (hb : (a.processMessage env s m).kernel.broken c = false) : a.kernel.broken c = false := by
  by_contra hne
  rw [Bool.not_eq_false] at hne
  have hafter : (a.processMessage env s m).kernel.broken c = true :=
    relay_invariant (P := fun b => b.kernel.broken c = true)
      (fun _ i m hb => broken_slotSend hb i m) hactive ht fun _ => hne
  rw [hafter] at hb
  cases hb

/-- With bytes pending for a target, a relay writes nothing to it. -/
theorem backlog_relay (env : Env) (h : OutputOk a) (hactive : (a.clients s).active = true)
    (ht : Target a s m t) (hc : a.connOf t = some c) (hp : (a.clients t).sbuf.pending ≠ []) :
    Backlog t c (a.kernel.wire c) (a.kernel.broken c) (a.processMessage env s m) :=
  relay_invariant (fun _ i m hb => hb.slotSend i m) hactive ht fun r =>
    ⟨h.same (sameOutput_relaying a env s m r),
      ((sameOutput_relaying a env s m r).connOf t).trans hc, hp, rfl, rfl⟩

/-- The bytes accepted and pending for a target grow by the frame, unless it is dropped, and
by an acknowledgement if the target is the sender. -/
theorem output_relay (env : Env) (h : OutputOk a) (hactive : (a.clients s).active = true)
    (ht : Target a s m t) (hc : a.connOf t = some c)
    (hbroken : (a.processMessage env s m).kernel.broken c = false) : ∃ acks,
      (a.processMessage env s m).kernel.wire c ++
          ((a.processMessage env s m).clients t).sbuf.pending =
        a.kernel.wire c ++ (a.clients t).sbuf.pending ++
          ((if dropped (m, (a.clients t).sbuf.pending.length) then [] else packMessage m) ++
            acks) ∧
        (acks = [] ∨ acks = packMessage (relayed env.now m) ∧ m.kind = some .priv) := by
  obtain ⟨acks, hcalls, hlen, hacks⟩ := callsOf_relay env h hactive ht hc
  have hconn : (a.processMessage env s m).connOf t = some c := by
    refine relay_invariant (P := fun b => b.connOf t = some c)
      (fun b i m hb => by rw [(OutputOnly.slotSend b i m).connOf, hb]) hactive ht fun r => ?_
    rw [(sameOutput_relaying a env s m r).connOf, hc]
  have hkept : keptFor c (a.processMessage env s m).log = keptFor c a.log ++
      ((if dropped (m, (a.clients t).sbuf.pending.length) then [] else [m]) ++
        (acks.filter fun call => !dropped call).map Prod.fst) := by
    rw [keptFor, hcalls, keptFor, List.filter_append, List.map_append, List.filter_cons]
    by_cases hd : dropped (m, (a.clients t).sbuf.pending.length) = true
    · simp [hd]
    · simp [hd]
  refine ⟨packed ((acks.filter fun call => !dropped call).map Prod.fst), ?_, ?_⟩
  · rw [(h.relay hactive ht).exact t c hconn hbroken,
      h.exact t c hc (unbroken_of_relay hactive ht hbroken), hkept, packed_append, packed_append]
    congr 2
    split <;> simp [packed]
  · cases acks with
    | nil => exact Or.inl rfl
    | cons x rest =>
      obtain rfl : rest = [] := by
        rw [List.length_cons] at hlen
        exact List.length_eq_zero_iff.mp (by omega)
      obtain ⟨hx, hm⟩ := hacks x List.mem_cons_self
      by_cases hd : dropped x = true
      · exact Or.inl (by simp [hd, packed])
      · exact Or.inr ⟨by simp [hd, packed, hx], hm⟩

/-- The whole frame is written or stored exactly if the bytes pending leave room for it. -/
theorem accepted_iff (h : OutputOk a) (hactive : (a.clients s).active = true)
    (ht : Target a s m t) : Accepted a (a.processMessage env s m) t m ↔ HasRoom a t m := by
  have hle := length_packMessage_le m
  constructor
  · intro hacc c hc hbroken
    by_cases hpending : (a.clients t).sbuf.pending = []
    · rw [hpending, List.length_nil]
      omega
    · have hafter := (backlog_relay env h hactive ht hc hpending).broken.trans hbroken
      obtain ⟨acks, heq, hacks⟩ := output_relay env h hactive ht hc hafter
      have hprefix := hacc c hc hafter
      rw [heq, List.prefix_append_right_inj] at hprefix
      by_contra hroom
      have hdrop : dropped (m, (a.clients t).sbuf.pending.length) = true := by
        have hne : (a.clients t).sbuf.pending.length ≠ 0 :=
          fun h0 => hpending (List.length_eq_zero_iff.mp h0)
        simpa [dropped, hne] using hroom
      rw [hdrop, if_pos rfl, List.nil_append] at hprefix
      rcases hacks with rfl | ⟨rfl, hm⟩
      · have hnil := List.prefix_nil.mp hprefix
        have hpos := length_packMessage_pos m
        rw [hnil] at hpos
        exact absurd hpos (Nat.lt_irrefl 0)
      · exact not_prefix_relayed hm env.now hprefix
  · intro hroom c hc hbroken
    obtain ⟨acks, heq, -⟩ := output_relay env h hactive ht hc hbroken
    have hkeep : dropped (m, (a.clients t).sbuf.pending.length) = false := by
      simpa [dropped] using fun _ => hroom c hc (unbroken_of_relay hactive ht hbroken)
    rw [heq, hkeep, if_neg Bool.false_ne_true, ← List.append_assoc]
    exact List.prefix_append _ _

theorem outputOk_called {history : History} (h : Reachable step (Server.init history) srv)
    {l : Label} (hcall : Called srv l a s m) : OutputOk a :=
  outputOk_closed.handled.called
    ((outputOk_of_reachable (reachable_opStep h)).same (sameOutput_prescribe srv l.writes)) hcall

/-- An acknowledged relay is accepted for all its targets, whenever and wherever
`process_message` is called, exactly if none of them has too many bytes pending. -/
theorem acknowledged_iff_room {history : History}
    (h : Reachable step (Server.init history) srv) {l : Label} (hcall : Called srv l a s m)
    (hactive : (a.clients s).active = true) :
    (Acked l.env a s m → ∀ t, Target a s m t → Accepted a (a.processMessage l.env s m) t m) ↔
      ∀ t, Target a s m t → HasRoom a t m := by
  have hok := outputOk_called h hcall
  constructor
  · intro hacc t ht
    exact (accepted_iff hok hactive ht).mp (hacc (acked_of_target hactive ht) t ht)
  · intro hroom _ t ht
    exact (accepted_iff hok hactive ht).mpr (hroom t ht)

/-! ## A receiver that does not read -/

/-- No discovery server, and the time 0. -/
def plainEnv : Env := ⟨0, none, ⟨fun _ => [], fun _ => true⟩⟩

/-- A login request under a name. -/
def loginRequest (u : String) : Message :=
  makeMessage 0 .login (Bytes.ascii u) [] (Bytes.ascii (u ++ ":pw"))

/-- A broadcast of the full payload length. -/
def shout : Message := makeMessage 0 .broadcast (Bytes.ascii "a") [] (List.replicate 1024 120)

/-- A wake-up with one request, no socket having room. -/
def wake (fd : Nat) (m : Message) : Label :=
  ⟨plainEnv, [], .readable fd (.frame (packMessage m))⟩

/-- Two clients connect and log in as `a` and `b`. -/
def meeting : List Label :=
  [⟨plainEnv, [], .accept 5 0⟩, ⟨plainEnv, [], .accept 6 0⟩, wake 5 (loginRequest "a"),
    wake 6 (loginRequest "b")]

/-- Two clients are logged in, and `n` bytes are pending for the second one. -/
structure Chatting (n : Nat) (srv : Server) : Prop where
  reachable : Reachable step (Server.init fun _ => none) srv
  first : Holds srv 0 5 0 []
  second : Holds srv 1 6 1 []
  active : ∀ i, (srv.clients i).active = true ↔ i = 0 ∨ i = 1
  pending : (srv.clients 1).sbuf.pending.length = n
  broken : srv.kernel.broken 1 = false

theorem kind_shout : shout.kind = some .broadcast := kind_makeMessage _ _ _ _ _

theorem wellFormed_shout : WellFormed shout := wellFormed_makeMessage _ _ _ _ _

theorem length_shout : (packMessage shout).length = 1100 := by
  have hlen : (Bytes.cstr (List.replicate 1024 120)).length = 1024 := by
    rw [Bytes.cstr_of_forall_ne fun b hb => by rw [List.eq_of_mem_replicate hb]; decide]
    exact List.length_replicate
  have hpayload : shout.payloadLen = 1024 := by
    change UInt16.ofNat (min (Bytes.cstr (List.replicate 1024 120)).length maxPayloadLen) = _
    rw [hlen]
    rfl
  rw [length_packMessage, packedLen, hpayload]
  rfl

variable {n : Nat}

/-- The state in which a request of the first client is processed. -/
def Server.serving (srv : Server) (m : Message) : Server :=
  (srv.prescribe []).filled 0 (.frame (packMessage m))

/-- What a wake-up of the first client finds. -/
theorem Chatting.prescribe (h : Chatting n srv) : (srv.prescribe []).findByFd 5 = some 0 ∧
    Holds (srv.prescribe []) 0 5 0 [] := by
  have hhold := h.first.quiet (quiet_prescribe srv [])
  exact ⟨((inv_of_reachable h.reachable).prescribe []).findByFd hhold, hhold⟩

theorem Chatting.called (h : Chatting n srv) (hwf : WellFormed m) :
    Called srv (wake 5 m) (srv.serving m) 0 m := by
  obtain ⟨hfind, hhold⟩ := h.prescribe
  have hcall := hhold.called_frame hfind (isFrame_packMessage m) hwf.unpack_pack plainEnv
  exact ⟨hcall.wake, hcall.complete, hcall.unpack⟩

theorem Chatting.serving (h : Chatting n srv) (m : Message) :
    (∀ i, ((srv.serving m).clients i).active = true ↔ i = 0 ∨ i = 1) ∧
      (srv.serving m).connOf 1 = some 1 ∧
      ((srv.serving m).clients 1).sbuf.pending.length = n ∧
      (srv.serving m).kernel.broken 1 = false := by
  have hread := sameButRead_filled (srv.prescribe []) 0 (.frame (packMessage m))
  refine ⟨fun i => ?_, ?_, ?_, ?_⟩
  · rw [Server.serving, hread.entry]
    exact h.active i
  · rw [Server.serving, hread.connOf]
    exact h.second.connOf
  · rw [Server.serving, hread.sbuf]
    exact h.pending
  · rw [Server.serving, hread.kernel]
    exact h.broken

/-- A broadcast of the first client is for the second one only. -/
theorem Chatting.target_iff (h : Chatting n srv) (hm : m.kind = some .broadcast) (t : Slot) :
    Target (srv.serving m) 0 m t ↔ t = 1 := by
  simp only [Target, hm, (h.serving m).1]
  constructor
  · rintro (⟨-, hne, ht⟩ | ⟨hp, -⟩)
    · exact ht.resolve_left hne
    · cases hp
  · rintro rfl
    exact Or.inl ⟨trivial, by decide, Or.inr rfl⟩

/-- A further broadcast that still fits is stored for the second client. -/
theorem Chatting.next (h : Chatting n srv) (hwf : WellFormed m) (hm : m.kind = some .broadcast)
    (hpos : 0 < n) (hfit : n + (packMessage m).length ≤ sbufSize) :
    ∃ t, step srv (wake 5 m) = some t ∧ Chatting (n + (packMessage m).length) t := by
  obtain ⟨hfind, hhold⟩ := h.prescribe
  obtain ⟨hactive, hconn, hpending, hbroken⟩ := h.serving m
  have hok := outputOk_called h.reachable (h.called hwf)
  have htarget := (h.target_iff hm 1).mpr rfl
  have hself := (hactive 0).mpr (Or.inl rfl)
  have hne : ((srv.serving m).clients 1).sbuf.pending ≠ [] := by
    intro hn
    rw [hn, List.length_nil] at hpending
    omega
  have hback := backlog_relay plainEnv hok hself htarget hconn hne
  obtain ⟨acks, hout, hacks⟩ := output_relay plainEnv hok hself htarget hconn
    (hback.broken.trans hbroken)
  have hkeep : dropped (m, ((srv.serving m).clients 1).sbuf.pending.length) = false := by
    rw [hpending]
    simpa [dropped] using fun _ => hfit
  have hnil : acks = [] := by
    rcases hacks with hacks | ⟨-, hpriv⟩
    · exact hacks
    · rw [hm] at hpriv
      cases hpriv
  rw [hkeep, if_neg Bool.false_ne_true, hnil, List.append_nil, hback.wire, List.append_assoc,
    List.append_cancel_left_eq] at hout
  obtain ⟨heq, hrest⟩ := hhold.handleRead_frame hfind (isFrame_packMessage m) hwf.unpack_pack
    plainEnv
  have hfed := hhold.handleRead hfind plainEnv (.frame (packMessage m))
  obtain ⟨t, ht⟩ : ∃ t, t = (srv.prescribe []).handleRead plainEnv 5 (.frame (packMessage m)) :=
    ⟨_, rfl⟩
  rw [← ht] at heq hfed hrest
  have hend : SameButRead ((srv.serving m).processMessage plainEnv 0 m) t := by
    rw [heq]
    exact sameButRead_consume _ 0 _
  have htable : t.table = (srv.serving m).table := by
    rw [hend.table, processMessage_broadcast hself hm, Server.table_slotSend,
      (OutputOnly.sendOthers _ _ _).table]
    rfl
  have hstep : step srv (wake 5 m) = some t := by
    rw [ht]
    rfl
  refine ⟨t, hstep, h.reachable.snoc hstep, hrest (by rw [hm]; decide), ?_, fun i => ?_, ?_, ?_⟩
  · exact (hfed.elsewhere.holds (by decide) (by decide)).mp (h.second.quiet (quiet_prescribe srv []))
  · rw [← hactive i]
    exact iff_of_eq (congrArg (· = true) (congrArg Entry.active (congrFun htable i)))
  · rw [hend.sbuf, hout, List.length_append, hpending]
  · rw [hend.kernel, hback.broken, hbroken]

/-- Broadcasts that fit are stored one after the other. -/
theorem Chatting.run (h : Chatting n srv) (hwf : WellFormed m) (hm : m.kind = some .broadcast)
    (hpos : 0 < n) (k : Nat) (hfit : n + k * (packMessage m).length ≤ sbufSize) :
    ∃ t, run step srv (List.replicate k (wake 5 m)) = some t ∧
      Chatting (n + k * (packMessage m).length) t := by
  induction k generalizing n srv with
  | zero => exact ⟨srv, rfl, by simpa using h⟩
  | succ k ih =>
    rw [Nat.succ_mul] at hfit
    obtain ⟨a, ha, hnext⟩ := h.next hwf hm hpos (by omega)
    obtain ⟨t, ht, hend⟩ := ih hnext (by omega) (by omega)
    refine ⟨t, run_cons_iff.mpr ⟨a, ha, ht⟩, ?_⟩
    rwa [Nat.succ_mul, Nat.add_comm (k * _), ← Nat.add_assoc]

/-- Without prescribed results a write loop stops at once. -/
theorem Kernel.writeAll_silent {k : Kernel} {fd : Nat} {d : List UInt8} (hk : k.script = [])
    (hc : k.conn fd = some c) (hb : k.broken c = false) (hd : d ≠ []) :
    (k.writeAll fd d).1 = .again ∧ (k.writeAll fd d).2.1 = 0 ∧
      (k.writeAll fd d).2.2.broken = k.broken := by
  have hloop : writeLoop [] d = (.again, 0, []) := by
    cases d with
    | nil => exact absurd rfl hd
    | cons b d => rfl
  rw [writeAll, if_neg (by simpa using hd)]
  simp only [hc, hb, hk, hloop, Bool.false_eq_true, if_false]
  refine ⟨trivial, trivial, ?_⟩
  ext d
  by_cases hd : d = c
  · rw [hd, Function.update_self, hb]
    rfl
  · rw [Function.update_of_ne hd]

/-- A login of a client whose socket has no room. -/
theorem login_step {fd : Nat} {u p : List UInt8} (hr : Inv srv) (h : Holds srv s fd c [])
    (hwf : WellFormed m) (hm : m.kind = some .login)
    (hscan : scanLogin m.payload.toList = some (u, p)) (hfree : findName srv.table u = none)
    (hempty : sbEmpty (srv.clients s).sbuf = true) (hok : (srv.clients s).sbuf.Ok)
    (hb : srv.kernel.broken c = false) :
    ∃ t, step srv (wake fd m) = some t ∧ Holds t s fd c [] ∧ Elsewhere s fd srv t ∧
      t.table = Function.update srv.table s ((srv.table s).login u) ∧
      (∀ i, i ≠ s → (t.clients i).sbuf = (srv.clients i).sbuf) ∧
      (t.clients s).sbuf.pending = packMessage (loginSuccessful 0 u) ∧
      t.kernel.broken = srv.kernel.broken := by
  have hhold := h.quiet (quiet_prescribe srv [])
  have hfind := (hr.prescribe []).findByFd hhold
  obtain ⟨heq, hrest⟩ := hhold.handleRead_frame hfind (isFrame_packMessage m) hwf.unpack_pack
    plainEnv
  have hfed := hhold.handleRead hfind plainEnv (.frame (packMessage m))
  have hread := sameButRead_filled (srv.prescribe []) s (.frame (packMessage m))
  obtain ⟨a, ha⟩ : ∃ a, a = (srv.prescribe []).filled s (.frame (packMessage m)) := ⟨_, rfl⟩
  rw [← ha] at heq hread
  have hlogin : a.processMessage plainEnv s m = ((a.note (.processed (a.connOf s) m)).setEntry s
      ((a.clients s).login u)).slotSend s (loginSuccessful 0 u) := by
    have hfree' : (a.note (.processed (a.connOf s) m)).findByUser u = none := by
      change findName a.table u = none
      rw [hread.table]
      exact hfree
    rw [Server.processMessage]
    simp only [hm]
    rw [Server.login, hscan]
    simp only [hfree']
    rfl
  obtain ⟨b, hb'⟩ : ∃ b, b = (a.note (.processed (a.connOf s) m)).setEntry s
    ((a.clients s).login u) := ⟨_, rfl⟩
  rw [← hb'] at hlogin
  have hbuf : ∀ i, (b.clients i).sbuf = (srv.clients i).sbuf := by
    intro i
    rw [hb']
    exact ((sameOutput_setEntry _ s _).sbuf i).trans (hread.sbuf i)
  have hfd : (b.clients s).fd = fd := by
    rw [hb']
    exact ((sameOutput_setEntry _ s _).fd s).trans ((hread.fd s).trans hhold.fd_eq)
  have hkernel : b.kernel = (srv.prescribe []).kernel := by
    rw [hb', ← hread.kernel]
    rfl
  have hsilent := @Kernel.writeAll_silent c b.kernel fd (packMessage (loginSuccessful 0 u))
    (by rw [hkernel]; rfl) (by rw [hkernel]; exact h.conn) (by rw [hkernel]; exact hb)
    (fun hn => by
      have := length_packMessage_pos (loginSuccessful 0 u)
      rw [hn] at this
      exact Nat.lt_irrefl 0 this)
  obtain ⟨-, d2, -, d4, -, d6⟩ := slotSend_direct (loginSuccessful 0 u) (by rw [hbuf]; exact hok)
    (show sbEmpty (b.clients s).sbuf = true by rw [hbuf]; exact hempty)
  rw [hfd, hsilent.1, if_pos rfl, hsilent.2.1, List.drop_zero] at d6
  rw [hfd, hsilent.2.2] at d2
  obtain ⟨t, ht⟩ : ∃ t, t = (srv.prescribe []).handleRead plainEnv fd (.frame (packMessage m)) :=
    ⟨_, rfl⟩
  rw [← ht] at heq hfed hrest
  have hend : SameButRead (b.slotSend s (loginSuccessful 0 u)) t := by
    rw [heq, hlogin]
    exact sameButRead_consume _ s _
  refine ⟨t, by rw [ht]; rfl, hrest (by rw [hm]; decide),
    ((quiet_prescribe srv []).elsewhere s fd).trans hfed.elsewhere, ?_, fun i hi => ?_, ?_, ?_⟩
  · rw [hend.table, Server.table_slotSend, hb', Server.table_setEntry, Server.table_note,
      hread.table, show (a.clients s).toEntry = srv.table s from hread.entry s]
    rfl
  · rw [hend.sbuf, d4 i hi, hbuf]
  · rw [hend.sbuf, d6]
  · rw [hend.kernel, d2, hkernel]
    rfl

/-- A slot filled with a new connection. -/
def Client.fresh (fd : Nat) : Client := { Client.zero with fd := fd, inUse := true }

theorem holds_fresh {fd : Nat} (hs : srv.clients s = .fresh fd) (hc : srv.kernel.conn fd = some c) :
    Holds srv s fd c [] :=
  ⟨by rw [hs]; rfl, by rw [hs]; rfl, hc,
    by
      rw [hs]
      exact ⟨List.length_replicate, Int.le_refl 0, Int.natCast_nonneg _⟩, by rw [hs]; rfl⟩

/-- Both clients are logged in, with the reply of the second one pending. -/
theorem chatting_meeting : ∃ srv, run step (Server.init fun _ => none) meeting = some srv ∧
    Chatting 92 srv := by
  obtain ⟨a, hrun, hclients, hconn, hbroken⟩ : ∃ a, run step (Server.init fun _ => none)
      [⟨plainEnv, [], .accept 5 0⟩, ⟨plainEnv, [], .accept 6 0⟩] = some a ∧
      a.clients = Function.update (Function.update (fun _ => .zero) 0 (.fresh 5)) 1 (.fresh 6) ∧
      a.kernel.conn = Function.update (Function.update (fun _ => none) 5 (some 0)) 6 (some 1) ∧
      a.kernel.broken = fun _ => false := ⟨_, rfl, rfl, rfl, rfl⟩
  have hreach : Reachable step (Server.init fun _ => none) a := ⟨_, hrun⟩
  have hinv := inv_of_reachable hreach
  have hout := outputOk_of_reachable (reachable_opStep hreach)
  have hfirst : Holds a 0 5 0 [] := holds_fresh (by rw [hclients]; rfl) (by rw [hconn]; rfl)
  have hsecond : Holds a 1 6 1 [] := holds_fresh (by rw [hclients]; rfl) (by rw [hconn]; rfl)
  have htable : ∀ i, a.table i = .zero := by
    intro i
    rw [Server.table, hclients]
    by_cases h1 : i = 1
    · rw [h1, Function.update_self]
      rfl
    · rw [Function.update_of_ne h1]
      by_cases h0 : i = 0
      · rw [h0, Function.update_self]
        rfl
      · rw [Function.update_of_ne h0]
        rfl
  have hempty : sbEmpty (a.clients 0).sbuf = true ∧ sbEmpty (a.clients 1).sbuf = true := by
    rw [hclients]
    exact ⟨rfl, rfl⟩
  obtain ⟨b, hb, hfirst', helse, htable', hsbuf, -, hbroken'⟩ := login_step hinv hfirst
    (wellFormed_makeMessage _ _ _ _ _) (kind_makeMessage _ _ _ _ _)
    (show scanLogin (loginRequest "a").payload.toList = some (Bytes.ascii "a", Bytes.ascii "pw") from rfl)
    (by
      refine List.find?_eq_none.mpr fun i _ => ?_
      rw [htable i]
      decide) hempty.1 (hout.buf 0) (by rw [hbroken])
  have hsecond' := (helse.holds (by decide) (by decide)).mp hsecond
  have hreach' := hreach.snoc hb
  have hout' := outputOk_of_reachable (reachable_opStep hreach')
  have hfree : findName b.table (Bytes.ascii "b") = none := by
    refine List.find?_eq_none.mpr fun i _ => ?_
    rw [htable']
    by_cases h0 : i = 0
    · rw [h0, Function.update_self, htable 0]
      decide
    · rw [Function.update_of_ne h0, htable i]
      decide
  obtain ⟨t, ht, hsecond'', helse', htable'', -, hpending, hbroken''⟩ := login_step
    (inv_of_reachable hreach') hsecond' (wellFormed_makeMessage _ _ _ _ _)
    (kind_makeMessage _ _ _ _ _)
    (show scanLogin (loginRequest "b").payload.toList = some (Bytes.ascii "b", Bytes.ascii "pw")
      from rfl) hfree (by rw [hsbuf 1 (by decide)]; exact hempty.2) (hout'.buf 1)
    (by rw [hbroken', hbroken])
  refine ⟨t, run_trans hrun (run_cons_iff.mpr ⟨b, hb, run_cons_iff.mpr ⟨t, ht, rfl⟩⟩),
    hreach'.snoc ht, (helse'.holds (by decide) (by decide)).mp hfirst', hsecond'', fun i => ?_, ?_,
    ?_⟩
  · change (t.table i).active = true ↔ _
    rw [htable'', htable']
    by_cases h1 : i = 1
    · rw [h1, Function.update_self]
      exact iff_of_true rfl (Or.inr rfl)
    · rw [Function.update_of_ne h1]
      by_cases h0 : i = 0
      · rw [h0, Function.update_self]
        exact iff_of_true rfl (Or.inl rfl)
      · rw [Function.update_of_ne h0, htable i]
        exact iff_of_false Bool.false_ne_true (not_or.mpr ⟨h0, h1⟩)
  · rw [hpending, length_packMessage]
    rfl
  · rw [hbroken'', hbroken', hbroken]

/-- The first broadcast of the first client is accepted for the second one. -/
theorem acknowledged_meeting : ∃ srv, run step (Server.init fun _ => none) meeting = some srv ∧
    (Acked plainEnv (srv.serving shout) 0 shout → ∀ t, Target (srv.serving shout) 0 shout t →
      Accepted (srv.serving shout) ((srv.serving shout).processMessage plainEnv 0 shout) t
        shout) := by
  obtain ⟨srv, hrun, h⟩ := chatting_meeting
  obtain ⟨hactive, hconn, hpending, -⟩ := h.serving shout
  refine ⟨srv, hrun, (acknowledged_iff_room h.reachable (h.called wellFormed_shout)
    ((hactive 0).mpr (Or.inl rfl))).mpr fun t ht c _ _ => ?_⟩
  obtain rfl := (h.target_iff kind_shout t).mp ht
  rw [hpending, length_shout]
  decide

/-- After 59 broadcasts of 1100 bytes to a client that does not read, the next one is
acknowledged and lost. -/
theorem acknowledged_dropped : ∃ srv,
    run step (Server.init fun _ => none) (meeting ++ List.replicate 59 (wake 5 shout)) =
      some srv ∧ Called srv (wake 5 shout) (srv.serving shout) 0 shout ∧
      ((srv.serving shout).clients 0).active = true ∧ Acked plainEnv (srv.serving shout) 0 shout ∧
      Target (srv.serving shout) 0 shout 1 ∧ ¬ Accepted (srv.serving shout)
        ((srv.serving shout).processMessage plainEnv 0 shout) 1 shout := by
  obtain ⟨a, hrun, ha⟩ := chatting_meeting
  obtain ⟨srv, hrun', h⟩ := ha.run wellFormed_shout kind_shout (by decide) 59
    (by rw [length_shout]; decide)
  rw [length_shout] at h
  obtain ⟨hactive, hconn, hpending, hbroken⟩ := h.serving shout
  have hself := (hactive 0).mpr (Or.inl rfl)
  have htarget := (h.target_iff kind_shout 1).mpr rfl
  have hcall := h.called wellFormed_shout
  refine ⟨srv, run_trans hrun hrun', hcall, hself, acked_of_target hself htarget, htarget, ?_⟩
  rw [accepted_iff (outputOk_called h.reachable hcall) hself htarget]
  intro hroom
  have hle := hroom 1 hconn hbroken
  rw [hpending, length_shout] at hle
  exact absurd hle (by decide)

end ChatSystem.Epoll
