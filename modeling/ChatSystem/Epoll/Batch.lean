import ChatSystem.Epoll.Arming

/-!
# Batches of events

`epoll_wait` reports a batch of descriptors, which the loop handles one after
the other, while handlers close descriptors and `accept` reuses their numbers. A
handler only closes its own descriptor, and `accept` never returns an open one,
so a descriptor still to be handled stands for the connection it was reported for.
-/

namespace ChatSystem.Epoll

open Transition

/-- An entry of `events`, with what the calls made for it meet. -/
inductive Ready
  /-- The listening socket: surroundings, descriptor and cut of each accepted connection. -/
  | listening (accepts : List (Env × Nat × Nat))
  /-- `EPOLLERR` or `EPOLLHUP`. -/
  | hangup (fd : Nat) (env : Env) (writes : List WriteAnswer) (unread : List UInt8)
  /-- `EPOLLIN`, `EPOLLOUT`, or both. -/
  | io (fd : Nat) (input : Option (Env × List WriteAnswer × Burst))
      (output : Option (Env × List WriteAnswer × List UInt8))

/-- The calls the event loop makes for an entry. -/
def Ready.calls : Ready → List Label
  | .listening accepts => accepts.map fun x => ⟨x.1, [], .accept x.2.1 x.2.2⟩
  | .hangup fd env writes unread => [⟨env, writes, .hangup fd unread⟩]
  | .io fd input output =>
    (input.toList.map fun x => ⟨x.1, x.2.1, .readable fd x.2.2⟩) ++
      output.toList.map fun x => ⟨x.1, x.2.1, .writable fd x.2.2⟩

/-- The descriptor of a connection an entry reports. -/
def Ready.descriptor : Ready → Option Nat
  | .listening _ => none
  | .hangup fd _ _ _ | .io fd _ _ => some fd

/-- What `epoll_wait` may return: registered descriptors, each at most once, in any order. -/
structure Batch (srv : Server) (batch : List Ready) : Prop where
  registered : ∀ r ∈ batch, ∀ fd, r.descriptor = some fd → srv.kernel.interest fd ≠ none
  once : (batch.map Ready.descriptor).Nodup

variable {srv t a b : Server} {l : Label} {d : Nat}

/-- The calls of an entry concern its descriptor, or accept connections. -/
theorem mem_calls {r : Ready} (h : l ∈ r.calls) :
    r.descriptor = none ∧ l.action.isAccept = true ∨
      r.descriptor = some l.action.fd ∧ l.action.isAccept = false := by
  cases r with
  | listening accepts =>
    obtain ⟨x, -, rfl⟩ := List.mem_map.mp h
    exact Or.inl ⟨rfl, rfl⟩
  | hangup fd env writes unread =>
    obtain rfl := List.mem_singleton.mp h
    exact Or.inr ⟨rfl, rfl⟩
  | io fd input output =>
    rcases List.mem_append.mp h with h | h
    · obtain ⟨x, -, rfl⟩ := List.mem_map.mp h
      exact Or.inr ⟨rfl, rfl⟩
    · obtain ⟨x, -, rfl⟩ := List.mem_map.mp h
      exact Or.inr ⟨rfl, rfl⟩

/-! ## Registered descriptors -/

/-- A closed descriptor is not registered. -/
def NoneStale (srv : Server) : Prop :=
  ∀ d, srv.kernel.conn d = none → srv.kernel.interest d = none

theorem interest_epmod_eq_none (k : Kernel) (fd d : Nat) (out : Bool) :
    (k.epmod fd out).interest d = none ↔ k.interest d = none := by
  unfold Kernel.epmod
  split
  · rfl
  · next hi =>
    by_cases hd : d = fd
    · simp [hd, hi]
    · simp only [Function.update_of_ne hd]

theorem NoneStale.epmod (h : NoneStale a) {k : Kernel} {fd : Nat} {out : Bool}
    (hconn : b.kernel.conn = a.kernel.conn) (hk : k.interest = a.kernel.interest)
    (hb : b.kernel = k.epmod fd out) : NoneStale b := by
  intro d hd
  rw [hb, interest_epmod_eq_none, hk]
  exact h d (hconn ▸ hd)

theorem NoneStale.slotSend (h : NoneStale a) (s : Slot) (m : Message) :
    NoneStale (a.slotSend s m) := by
  have hconn := (OutputOnly.slotSend a s m).conn
  have hframe := (Kernel.writeAll_frame a.kernel (a.clients s).fd (packMessage m)).2.1
  cases he : sbEmpty (a.clients s).sbuf with
  | false => exact h.epmod (k := a.kernel) hconn rfl (by rw [slotSend_of_nonempty m he]; rfl)
  | true =>
    have hslot := slotSend_of_empty m he
    obtain ⟨⟨stop, sent, k⟩, hw⟩ :
        ∃ x, a.kernel.writeAll (a.clients s).fd (packMessage m) = x := ⟨_, rfl⟩
    simp only [hw] at hslot hframe
    cases stop with
    | again => exact h.epmod hconn hframe (by rw [hslot]; rfl)
    | done =>
      intro d hd
      have hk : (a.slotSend s m).kernel.interest = a.kernel.interest := by rw [hslot]; exact hframe
      rw [hk]
      exact h d (hconn ▸ hd)
    | failed =>
      intro d hd
      have hk : (a.slotSend s m).kernel.interest = a.kernel.interest := by rw [hslot]; exact hframe
      rw [hk]
      exact h d (hconn ▸ hd)

theorem NoneStale.flush (h : NoneStale a) {s : Slot} {fd : Nat} {stop : Stop}
    (hflush : a.sbFlush s fd = (stop, b)) :
    NoneStale (if stop = .done then { b with kernel := b.kernel.epmod fd false } else b) := by
  have hframe := Kernel.writeAll_frame a.kernel fd (a.clients s).sbuf.pending
  have hconn : b.kernel.conn = a.kernel.conn := by
    exact (congrArg (fun x => x.2.kernel.conn) hflush).symm.trans hframe.1
  have hinterest : b.kernel.interest = a.kernel.interest := by
    exact (congrArg (fun x => x.2.kernel.interest) hflush).symm.trans hframe.2.1
  split
  · exact h.epmod (b := { b with kernel := b.kernel.epmod fd false }) (by simpa using hconn)
      hinterest rfl
  · intro d hd
    rw [hinterest]
    exact h d (hconn ▸ hd)

theorem noneStale_handled : Handled NoneStale where
  note _ h := h
  input _ h := h
  save _ h := h
  send s m h := h.slotSend s m
  login _ _ _ h := h
  clear _ h := h
  status _ _ h := h
  release := by
    intro a s _ h d hd
    change Function.update a.kernel.conn (a.clients s).fd none d = none at hd
    change Function.update a.kernel.interest (a.clients s).fd none d = none
    by_cases he : d = (a.clients s).fd
    · rw [he, Function.update_self]
    · rw [Function.update_of_ne he] at hd ⊢
      exact h d hd
  flush _ hflush h := h.flush hflush

theorem NoneStale.acceptOne (h : NoneStale a) (env : Env) (fd sent : Nat) :
    NoneStale (a.acceptOne env fd sent) := by
  intro d hd
  unfold Server.acceptOne at hd ⊢
  cases hfree : a.findFree with
  | none =>
    simp only [hfree] at hd ⊢
    change Function.update (Function.update a.kernel.conn fd _) fd none d = none at hd
    change Function.update a.kernel.interest fd none d = none
    rw [Function.update_idem] at hd
    by_cases he : d = fd
    · rw [he, Function.update_self]
    · rw [Function.update_of_ne he] at hd ⊢
      exact h d hd
  | some s =>
    simp only [hfree] at hd ⊢
    change Function.update a.kernel.conn fd _ d = none at hd
    change Function.update a.kernel.interest fd _ d = none
    by_cases he : d = fd
    · rw [he, Function.update_self] at hd
      cases hd
    · rw [Function.update_of_ne he] at hd ⊢
      exact h d hd

/-- In every reachable state, registered descriptors are open. -/
theorem noneStale_of_reachable {history : History}
    (h : Reachable step (Server.init history) srv) : NoneStale srv := by
  refine h.invariant (fun _ _ => rfl) fun a l b (ha : NoneStale a) hs => ?_
  exact noneStale_handled.step ha
    (fun fd sent _ _ => NoneStale.acceptOne (a := a.prescribe l.writes) ha l.env fd sent) hs

/-! ## One call -/

/-- A call for another descriptor, or an accept, leaves an open descriptor alone. -/
theorem conn_step (hinv : Inv srv) (hs : step srv l = some t) (hopen : srv.kernel.conn d ≠ none)
    (hother : l.action.isAccept = true ∨ l.action.fd ≠ d) :
    t.kernel.conn d = srv.kernel.conn d := by
  rcases step_at hinv hs with hq | ⟨s, c, r, data, ending, hno, -, hf⟩ | ⟨s, -, ha⟩ | hr
  · rw [hq.conn]
  · rcases hother with hacc | hne
    · rw [hno] at hacc
      cases hacc
    · exact hf.elsewhere.conn d (Ne.symm hne)
  · rw [ha.conn]
    apply Function.update_of_ne
    rintro rfl
    exact hopen ha.fresh
  · rw [hr.conn]

/-- The handler of a descriptor leaves it with its connection, or closes it. -/
theorem conn_step_own (hinv : Inv srv) (hs : step srv l = some t)
    (hno : l.action.isAccept = false) :
    t.kernel.conn l.action.fd = srv.kernel.conn l.action.fd ∨
      t.kernel.conn l.action.fd = none := by
  rcases step_at hinv hs with hq | ⟨s, c, r, data, ending, -, hh, hf⟩ | ⟨s, hacc, -⟩ | hr
  · exact Or.inl (by rw [hq.conn])
  · have hout := hf.outcome
    cases hleft : (receiver.feed r ⟨data, ending.isOver⟩).2 with
    | some r' =>
      rw [hleft] at hout
      exact Or.inl ((show Holds t s _ c r' from hout).conn.trans hh.conn.symm)
    | none =>
      rw [hleft] at hout
      exact Or.inr (show Freed t s _ from hout).conn
  · rw [hno] at hacc
    cases hacc
  · exact Or.inl (by rw [hr.conn])

/-! ## Runs of calls -/

/-- Calls that do not handle an open descriptor leave its connection alone. -/
theorem conn_run {ls : List Label} (hinv : Inv a) (hrun : run step a ls = some b)
    (hopen : a.kernel.conn d ≠ none)
    (hother : ∀ l ∈ ls, l.action.isAccept = true ∨ l.action.fd ≠ d) :
    b.kernel.conn d = a.kernel.conn d := by
  induction ls generalizing a with
  | nil =>
    obtain rfl := Option.some.inj hrun
    rfl
  | cons l ls ih =>
    obtain ⟨a', hs, hrest⟩ := run_cons_iff.mp hrun
    have hstep := conn_step hinv hs hopen (hother l List.mem_cons_self)
    rw [ih (hinv.step hs) hrest (by rwa [hstep]) fun k hk => hother k (List.mem_cons_of_mem _ hk),
      hstep]

/-- The calls for one descriptor leave it with its connection, or close it. -/
theorem conn_run_own {ls : List Label} (hinv : Inv a) (hrun : run step a ls = some b)
    (hown : ∀ l ∈ ls, l.action.isAccept = false ∧ l.action.fd = d) :
    b.kernel.conn d = a.kernel.conn d ∨ b.kernel.conn d = none := by
  induction ls generalizing a with
  | nil =>
    obtain rfl := Option.some.inj hrun
    exact Or.inl rfl
  | cons l ls ih =>
    obtain ⟨a', hs, hrest⟩ := run_cons_iff.mp hrun
    obtain ⟨hno, rfl⟩ := hown l List.mem_cons_self
    have hstep := conn_step_own hinv hs hno
    rcases ih (hinv.step hs) hrest fun k hk => hown k (List.mem_cons_of_mem _ hk) with hb | hb
    · rw [hb]
      exact hstep
    · exact Or.inr hb

/-- The calls for a batch up to one of them: those of the entries before, and some of its own. -/
theorem calls_split {batch : List Ready} {pre post : List Label}
    (h : batch.flatMap Ready.calls = pre ++ l :: post) :
    ∃ before r after own, batch = before ++ r :: after ∧ l ∈ r.calls ∧ (∀ k ∈ own, k ∈ r.calls) ∧
      pre = before.flatMap Ready.calls ++ own := by
  induction batch generalizing pre with
  | nil => simp at h
  | cons r batch ih =>
    rw [List.flatMap_cons] at h
    rcases List.append_eq_append_iff.mp h with ⟨own, rfl, hrest⟩ | ⟨own, hcalls, hrest⟩
    · obtain ⟨before, r', after, own', rfl, hl, hown, rfl⟩ := ih hrest
      exact ⟨r :: before, r', after, own', rfl, hl, hown, by
        rw [List.flatMap_cons, List.append_assoc]⟩
    · cases own with
      | nil =>
        have hrest : batch.flatMap Ready.calls = [] ++ l :: post := hrest.symm
        obtain ⟨before, r', after, own', rfl, hl, hown, hpre⟩ := ih hrest
        refine ⟨r :: before, r', after, own', rfl, hl, hown, ?_⟩
        rw [List.append_nil] at hcalls
        rw [List.flatMap_cons, List.append_assoc, ← hpre, List.append_nil, hcalls]
      | cons k own =>
        obtain ⟨rfl, -⟩ := List.cons.inj hrest
        refine ⟨[], r, batch, pre, rfl, ?_, fun k hk => ?_, rfl⟩
        · rw [hcalls]
          simp
        · rw [hcalls]
          exact List.mem_append_left _ hk

/-- Events reach the right connection: for every batch that `epoll_wait` may return in a
reachable state, whatever the calls before it did and whichever numbers `accept` returned,
a handler for a reported descriptor finds the connection it was reported for, or none; that
connection was accepted before the batch. -/
theorem events_reach_connection {history : History}
    (h : Reachable step (Server.init history) srv) {batch : List Ready} (hb : Batch srv batch)
    {pre post : List Label} (hcalls : batch.flatMap Ready.calls = pre ++ l :: post)
    (hrun : run step srv pre = some a) (hno : l.action.isAccept = false) :
    ∃ c, srv.kernel.conn l.action.fd = some c ∧ c < srv.kernel.accepted ∧
      ∀ s, a.findByFd l.action.fd = some s → a.connOf s = some c := by
  have hinv := inv_of_reachable h
  obtain ⟨before, r, after, own, rfl, hl, hown, rfl⟩ := calls_split hcalls
  have hdesc : r.descriptor = some l.action.fd := by
    rcases mem_calls hl with ⟨-, hacc⟩ | ⟨hd, -⟩
    · rw [hno] at hacc
      cases hacc
    · exact hd
  have hopen : srv.kernel.conn l.action.fd ≠ none := by
    intro hclosed
    exact hb.registered r (by simp) _ hdesc (noneStale_of_reachable h _ hclosed)
  obtain ⟨c, hc⟩ := Option.ne_none_iff_exists'.mp hopen
  refine ⟨c, hc, hinv.conn_lt _ c hc, fun s hfind => ?_⟩
  -- the entries before concern other descriptors
  have hothers : ∀ k ∈ before.flatMap Ready.calls,
      k.action.isAccept = true ∨ k.action.fd ≠ l.action.fd := by
    intro k hk
    obtain ⟨r', hr', hk⟩ := List.mem_flatMap.mp hk
    rcases mem_calls hk with ⟨-, hacc⟩ | ⟨hd, -⟩
    · exact Or.inl hacc
    · right
      intro he
      have hnodup := hb.once
      rw [List.map_append, List.map_cons, List.nodup_append] at hnodup
      refine hnodup.2.2 r'.descriptor (List.mem_map_of_mem hr') r.descriptor
        List.mem_cons_self ?_
      rw [hd, hdesc, he]
  have hself : ∀ k ∈ own, k.action.isAccept = false ∧ k.action.fd = l.action.fd := by
    intro k hk
    rcases mem_calls (hown k hk) with ⟨hd, -⟩ | ⟨hd, hacc⟩
    · rw [hdesc] at hd
      cases hd
    · rw [hdesc] at hd
      exact ⟨hacc, (Option.some.inj hd).symm⟩
  rw [run_append, Option.bind_eq_some_iff] at hrun
  obtain ⟨b, hbefore, hafter⟩ := hrun
  have hkept := conn_run hinv hbefore hopen hothers
  have hinvb := run_invariant (fun _ _ _ hi hs => hi.step hs) hinv hbefore
  have hinva := run_invariant (fun _ _ _ hi hs => hi.step hs) hinvb hafter
  obtain ⟨c', r', hh⟩ := hinva.holds_of_findByFd hfind
  have hconn : a.connOf s = a.kernel.conn l.action.fd := by
    rw [Server.connOf, hh.fd_eq]
  rcases conn_run_own hinvb hafter hself with hsame | hclosed
  · rw [hconn, hsame, hkept, hc]
  · rw [hh.conn] at hclosed
    cases hclosed

/-- A batch that hangs up one of two connections, accepts a third and then wakes the other. -/
def reusingBatch (env : Env) : List Ready :=
  [.hangup 6 env [] [], .listening [(env, 6, 0)], .io 5 none (some (env, [], []))]

/-- The number 6 is reused before the batch is over; the event for 5 finds its connection. -/
theorem events_reach_connection_reused : ∃ srv a,
    run step (Server.init fun _ => none) twoConnects = some srv ∧
    run step srv (((reusingBatch ⟨0, none, ⟨fun _ => [], fun _ => true⟩⟩).flatMap
      Ready.calls).take 2) = some a ∧ a.kernel.conn 6 = some 2 ∧
    ∀ s, a.findByFd 5 = some s → a.connOf s = some 0 := by
  have hrun : run step (Server.init fun _ => none) twoConnects = some _ := rfl
  obtain ⟨srv, hsrv⟩ : ∃ srv, run step (Server.init fun _ => none) twoConnects = some srv :=
    ⟨_, hrun⟩
  have hbatch : Batch srv (reusingBatch ⟨0, none, ⟨fun _ => [], fun _ => true⟩⟩) := by
    obtain rfl := Option.some.inj (hrun.symm.trans hsrv)
    refine ⟨fun r hr fd hfd => ?_, by simp [reusingBatch, Ready.descriptor]⟩
    simp only [reusingBatch, List.mem_cons, List.not_mem_nil, or_false] at hr
    rcases hr with rfl | rfl | rfl
    · obtain rfl := Option.some.inj hfd
      exact Option.some_ne_none false
    · cases hfd
    · obtain rfl := Option.some.inj hfd
      exact Option.some_ne_none false
  have hconn : srv.kernel.conn 5 = some 0 := by
    obtain rfl := Option.some.inj (hrun.symm.trans hsrv)
    rfl
  have hpre : ∃ a, run step srv (((reusingBatch ⟨0, none, ⟨fun _ => [], fun _ => true⟩⟩).flatMap
      Ready.calls).take 2) = some a ∧ a.kernel.conn 6 = some 2 := by
    obtain rfl := Option.some.inj (hrun.symm.trans hsrv)
    exact ⟨_, rfl, rfl⟩
  obtain ⟨a, ha, h6⟩ := hpre
  obtain ⟨c, hc, -, hfind⟩ := events_reach_connection ⟨_, hsrv⟩ hbatch
    (List.take_append_drop 2 _).symm ha rfl
  obtain rfl := Option.some.inj (hc.symm.trans hconn)
  exact ⟨srv, a, hsrv, ha, h6, hfind⟩

end ChatSystem.Epoll
