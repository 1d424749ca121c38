import ChatSystem.Epoll.Loop

/-!
# Framing of the epoll server

The trace of a connection is what the abstract receiver makes of its arrivals.
From this, the messages passed to `process_message` are compared with those that
blocking reception returns on the same stream, and with those that precede the
release of the connection.
-/

namespace ChatSystem.Epoll

open Channel Reassembly Transition

/-- The arrivals of a connection in a trace. -/
def arrivalsOf (c : Nat) (log : List Event) : List (Arrival UInt8) :=
  log.filterMap fun
    | .arrived (some c') data ending => if c' = c then some ⟨data, ending.isOver⟩ else none
    | _ => none

/-- The messages of a connection passed to `process_message` in a trace. -/
def processedOf (c : Nat) (log : List Event) : List Message :=
  log.filterMap fun
    | .processed (some c') m => if c' = c then some m else none
    | _ => none

/-- The bytes that arrived on a connection. -/
def streamOf (c : Nat) (log : List Event) : List UInt8 := stream (arrivalsOf c log)

/-- The arrivals, processed messages and the release of a connection. -/
def Event.concerns (c : Nat) : Event → Bool
  | .arrived c' _ _ => c' = some c
  | .processed c' _ => c' = some c
  | .closed c' => c' = some c
  | _ => false

/-- The messages of a session through the first logout. -/
def throughLogout : List Message → List Message
  | [] => []
  | m :: ms => if m.kind = some .logout then [m] else m :: throughLogout ms

/-! ## Traces -/

variable {srv t : Server} {c : Nat}

@[simp] theorem arrivalsOf_append (c : Nat) (l k : List Event) :
    arrivalsOf c (l ++ k) = arrivalsOf c l ++ arrivalsOf c k := List.filterMap_append ..

@[simp] theorem processedOf_append (c : Nat) (l k : List Event) :
    processedOf c (l ++ k) = processedOf c l ++ processedOf c k := List.filterMap_append ..

theorem arrivalsOf_inputLog (c : Nat) (srv : Server) :
    arrivalsOf c srv.inputLog = arrivalsOf c srv.log := by
  rw [arrivalsOf, Server.inputLog, List.filterMap_filter]
  refine List.filterMap_congr fun e _ => ?_
  cases e <;> rfl

theorem processedOf_inputLog (c : Nat) (srv : Server) :
    processedOf c srv.inputLog = processedOf c srv.log := by
  rw [processedOf, Server.inputLog, List.filterMap_filter]
  refine List.filterMap_congr fun e _ => ?_
  cases e <;> rfl

theorem arrivalsOf_processedEvents (c c' : Nat) (fs : List (List UInt8)) :
    arrivalsOf c (processedEvents c' fs) = [] := by
  simp [arrivalsOf, processedEvents]

theorem processedOf_processedEvents (c : Nat) (fs : List (List UInt8)) :
    processedOf c (processedEvents c fs) = fs.filterMap unpackMessage := by
  simp only [processedOf, processedEvents, List.filterMap_map]
  simp

theorem closed_not_mem_processedEvents (x : Option Nat) (c : Nat) (fs : List (List UInt8)) :
    .closed x ∉ processedEvents c fs := by
  simp [processedEvents]

theorem mem_inputLog_of_isInput {e : Event} (he : e.isInput = true) :
    e ∈ srv.inputLog ↔ e ∈ srv.log := by
  simp [Server.inputLog, he]

/-- The trace of a connection is what the receiver makes of its arrivals. -/
structure Linked (srv : Server) (c : Nat) : Prop where
  live : receiver.Live (arrivalsOf c srv.inputLog)
  processed : processedOf c srv.inputLog =
    (receiver.feedAll [] (arrivalsOf c srv.inputLog)).1.filterMap unpackMessage
  left : ∀ s fd r, Holds srv s fd c r →
    (receiver.feedAll [] (arrivalsOf c srv.inputLog)).2 = some r
  closed : .closed (some c) ∈ srv.inputLog ↔
    (receiver.feedAll [] (arrivalsOf c srv.inputLog)).2 = none
  last : ∀ pre post, srv.inputLog = pre ++ .closed (some c) :: post →
    post.filter (Event.concerns c) = []
  fresh : srv.kernel.accepted ≤ c → srv.inputLog.filter (Event.concerns c) = []

theorem linked_init (history : History) (c : Nat) : Linked (Server.init history) c :=
  ⟨live_nil, rfl, fun s fd r hh => absurd hh.inUse (by simp [Server.init, Client.zero]),
    by simp [Server.init, Server.inputLog, arrivalsOf, feedAll],
    fun pre post h => by simp [Server.init, Server.inputLog] at h, fun _ => rfl⟩

/-- Events that do not concern a connection leave its trace alone. -/
theorem Linked.of_irrelevant (h : Linked srv c) {evs : List Event}
    (hlog : t.inputLog = srv.inputLog ++ evs) (hevs : ∀ e ∈ evs, e.concerns c = false)
    (hacc : srv.kernel.accepted ≤ t.kernel.accepted)
    (hholds : ∀ s fd r, Holds t s fd c r →
      (receiver.feedAll [] (arrivalsOf c srv.inputLog)).2 = some r) : Linked t c := by
  have harr : arrivalsOf c evs = [] := by
    rw [arrivalsOf, List.filterMap_eq_nil_iff]
    intro e he
    have := hevs e he
    cases e with
    | arrived c' d en =>
      cases c' with
      | none => rfl
      | some c' => simpa [Event.concerns] using this
    | _ => rfl
  have hproc : processedOf c evs = [] := by
    rw [processedOf, List.filterMap_eq_nil_iff]
    intro e he
    have := hevs e he
    cases e with
    | processed c' m =>
      cases c' with
      | none => rfl
      | some c' => simpa [Event.concerns] using this
    | _ => rfl
  have hfilter : evs.filter (Event.concerns c) = [] := by
    simpa [List.filter_eq_nil_iff] using hevs
  have hclosed : .closed (some c) ∉ evs := fun hm => by simpa [Event.concerns] using hevs _ hm
  refine ⟨?_, ?_, ?_, ?_, ?_, ?_⟩
  · rw [hlog, arrivalsOf_append, harr, List.append_nil]
    exact h.live
  · rw [hlog, processedOf_append, arrivalsOf_append, harr, hproc, List.append_nil, List.append_nil]
    exact h.processed
  · rw [hlog, arrivalsOf_append, harr, List.append_nil]
    exact hholds
  · rw [hlog, arrivalsOf_append, harr, List.append_nil, List.mem_append, or_iff_left hclosed]
    exact h.closed
  · intro pre post hp
    rw [hlog, List.append_eq_append_iff] at hp
    rcases hp with ⟨as, rfl, hevs'⟩ | ⟨bs, hsrv, hpost⟩
    · exact absurd (by rw [hevs']; simp) hclosed
    · rcases bs with _ | ⟨b, bs⟩
      · exact absurd (by rw [← List.nil_append evs, ← hpost]; simp) hclosed
      · obtain ⟨rfl, rfl⟩ := List.cons.inj hpost
        change List.filter _ (bs ++ evs) = []
        rw [List.filter_append, h.last pre bs hsrv, hfilter, List.nil_append]
  · intro hc
    rw [hlog, List.filter_append, h.fresh (hacc.trans hc), hfilter, List.nil_append]

/-- The arrival an event of the connection records. -/
theorem Fed.arrivals {s : Slot} {fd : Nat} {r data : List UInt8} {ending : Ending}
    (hf : Fed srv t s fd c r data ending) :
    arrivalsOf c t.inputLog = arrivalsOf c srv.inputLog ++ [⟨data, ending.isOver⟩] := by
  rw [hf.log, ← List.singleton_append, arrivalsOf_append, arrivalsOf_append, arrivalsOf_append,
    arrivalsOf_processedEvents]
  split <;> simp [arrivalsOf]

/-- An event of the connection itself. -/
theorem Linked.fed (h : Linked srv c) (hinv : Inv srv) {s : Slot} {fd : Nat} {r data : List UInt8}
    {ending : Ending} (hs : Holds srv s fd c r) (hf : Fed srv t s fd c r data ending)
    (ht : Inv t) : Linked t c := by
  have hopen := h.left s fd r hs
  have hnot : .closed (some c) ∉ srv.inputLog := fun hm => by
    rw [h.closed, hopen] at hm
    cases hm
  obtain ⟨fs, left, hfeed⟩ : ∃ fs left, receiver.feed r ⟨data, ending.isOver⟩ = (fs, left) :=
    ⟨_, _, rfl⟩
  have hlog := hf.log
  have hout := hf.outcome
  have harr := hf.arrivals
  rw [hfeed] at hlog hout
  have hall : receiver.feedAll [] (arrivalsOf c t.inputLog) =
      ((receiver.feedAll [] (arrivalsOf c srv.inputLog)).1 ++ fs, left) := by
    rw [harr, feedAll_append_singleton]
    obtain ⟨⟨gs, l⟩, hg⟩ : ∃ x, receiver.feedAll [] (arrivalsOf c srv.inputLog) = x := ⟨_, rfl⟩
    rw [hg] at hopen ⊢
    obtain rfl : l = some r := hopen
    simp only [hfeed]
  have hevs : .closed (some c) ∉ (.arrived (some c) data ending :: processedEvents c fs) := by
    simp [closed_not_mem_processedEvents]
  refine ⟨?_, ?_, ?_, ?_, ?_, ?_⟩
  · rw [harr]
    exact h.live.append hopen _
  · rw [hall, List.filterMap_append, ← h.processed, hlog, ← List.singleton_append,
      processedOf_append, processedOf_append, processedOf_append, processedOf_processedEvents]
    split <;> simp [processedOf]
  · intro i d r' hi
    rw [hall]
    cases left with
    | some r'' =>
      have hout : Holds t s fd c r'' := hout
      have hd := ht.conn_inj d fd c hi.conn hout.conn
      have his := ht.fd_inj i s hi.inUse hout.inUse (by rw [hi.fd_eq, hout.fd_eq, hd])
      rw [← hout.received, ← hi.received, his]
    | none =>
      have hout : Freed t s fd := hout
      have hd : d ≠ fd := by
        rintro rfl
        have hc := hi.conn
        rw [hout.conn] at hc
        cases hc
      have hc := hi.conn
      rw [hf.elsewhere.conn d hd] at hc
      exact absurd (hinv.conn_inj d fd c hc hs.conn) hd
  · rw [hall, hlog, ← List.cons_append, List.mem_append, List.mem_append]
    cases left with
    | some r' => simp [hnot, closed_not_mem_processedEvents]
    | none => simp
  · intro pre post hp
    rw [hlog, ← List.cons_append, ← List.append_assoc] at hp
    have hpre : .closed (some c) ∉ srv.inputLog ++
        .arrived (some c) data ending :: processedEvents c fs := by
      rw [List.mem_append]
      exact fun hm => hm.elim hnot hevs
    cases left with
    | some r' =>
      rw [Option.isNone_some, if_neg Bool.false_ne_true, List.append_nil] at hp
      exact absurd (by rw [hp]; simp) hpre
    | none =>
      rw [Option.isNone_none, if_pos rfl, List.append_eq_append_iff] at hp
      rcases hp with ⟨as, rfl, hlast⟩ | ⟨bs, hsrv, hlast⟩
      · rcases as with _ | ⟨a, as⟩
        · obtain ⟨-, rfl⟩ := List.cons.inj hlast
          rfl
        · obtain ⟨-, hnil⟩ := List.cons.inj hlast
          simp at hnil
      · rcases bs with _ | ⟨b, bs⟩
        · obtain ⟨-, rfl⟩ := List.cons.inj hlast
          rfl
        · obtain ⟨rfl, -⟩ := List.cons.inj hlast
          exact absurd (by rw [hsrv]; simp) hpre
  · intro hc
    have := hinv.conn_lt fd c hs.conn
    have := hf.elsewhere.accepted
    omega

/-- An event of another connection. -/
theorem Linked.fed_other (h : Linked srv c) {s : Slot} {fd c' : Nat} {r data : List UInt8}
    {ending : Ending} (hf : Fed srv t s fd c' r data ending) (hne : c' ≠ c) : Linked t c := by
  refine h.of_irrelevant hf.log ?_ hf.elsewhere.accepted.ge fun i d r' hi => ?_
  · intro e he
    rw [← List.cons_append, List.mem_append, List.mem_cons] at he
    rcases he with (rfl | he) | he
    · simpa [Event.concerns] using hne
    · obtain ⟨m, -, rfl⟩ := List.mem_map.mp he
      simpa [Event.concerns] using hne
    · split at he
      · obtain rfl := List.mem_singleton.mp he
        simpa [Event.concerns] using hne
      · cases he
  · have hout := hf.outcome
    have hd : d ≠ fd := by
      rintro rfl
      have hc := hi.conn
      cases hleft : (receiver.feed r ⟨data, ending.isOver⟩).2 with
      | some r'' =>
        rw [hleft] at hout
        have hout : Holds t s d c' r'' := hout
        rw [hout.conn] at hc
        exact hne (Option.some.inj hc)
      | none =>
        rw [hleft] at hout
        have hout : Freed t s d := hout
        rw [hout.conn] at hc
        cases hc
    have his : i ≠ s := by
      rintro rfl
      cases hleft : (receiver.feed r ⟨data, ending.isOver⟩).2 with
      | some r'' =>
        rw [hleft] at hout
        have hout : Holds t i fd c' r'' := hout
        exact hd (hi.fd_eq.symm.trans hout.fd_eq)
      | none =>
        rw [hleft] at hout
        have hout : Freed t i fd := hout
        have hu := hi.inUse
        rw [hout.inUse] at hu
        cases hu
    exact h.left i d r' ((hf.elsewhere.holds his hd).mpr hi)

/-- A new connection starts with an empty trace. -/
theorem Linked.admitted (h : Linked srv c) {s : Slot} {fd : Nat} (ha : Admitted srv t s fd)
    (ht : Inv t) : Linked t c := by
  have hlog : t.inputLog = srv.inputLog ++ [.accepted srv.kernel.accepted s] := by
    rw [Server.inputLog, ha.log, List.filter_append]
    rfl
  refine h.of_irrelevant hlog (by simp [Event.concerns]) (by rw [ha.accepted]; exact Nat.le_succ _)
    fun i d r hi => ?_
  by_cases his : i = s
  · subst his
    obtain rfl := hi.fd_eq.symm.trans ha.holds.fd_eq
    have hc := hi.conn
    rw [ha.holds.conn, Option.some.injEq] at hc
    have hr : ([] : List UInt8) = r := ha.holds.received.symm.trans hi.received
    have harr : arrivalsOf c srv.inputLog = [] := by
      rw [arrivalsOf, List.filterMap_eq_nil_iff]
      intro e he
      have hnone := List.filter_eq_nil_iff.mp (h.fresh hc.le) e he
      cases e with
      | arrived c' d en =>
        cases c' with
        | none => rfl
        | some c' => simpa [Event.concerns] using hnone
      | _ => rfl
    rw [harr, ← hr]
    rfl
  · have he := ha.elsewhere i his
    have hd : d ≠ fd := ht.fd_ne ha.holds hi his
    exact h.left i d r ⟨by rw [← he]; exact hi.inUse, by rw [← he]; exact hi.fd_eq,
      by rw [← hi.conn, ha.conn, Function.update_of_ne hd], by rw [← he]; exact hi.bufOk,
      by rw [← he]; exact hi.received⟩

theorem Linked.step (h : Linked srv c) (hinv : Inv srv) {l : Label} (hs : step srv l = some t) :
    Linked t c := by
  have ht := hinv.step hs
  rcases step_cases hinv hs with hq | ⟨s, fd, c', r, data, ending, hh, hf⟩ | ⟨s, fd, ha⟩ | hr
  · exact h.of_irrelevant (hq.inputLog.trans (List.append_nil _).symm) (by simp) hq.accepted.ge
      fun s fd r hh => h.left s fd r (hh.quiet hq.symm)
  · by_cases hc : c' = c
    · subst hc
      exact h.fed hinv hh hf ht
    · exact h.fed_other hf hc
  · exact h.admitted ha ht
  · refine h.of_irrelevant (hr.inputLog.trans (List.append_nil _).symm) (by simp)
      (by rw [hr.accepted]; exact Nat.le_succ _) fun s fd r hh => h.left s fd r ?_
    exact ⟨by rw [← hr.clients]; exact hh.inUse, by rw [← hr.clients]; exact hh.fd_eq,
      by rw [← hr.conn]; exact hh.conn, by rw [← hr.clients]; exact hh.bufOk,
      by rw [← hr.clients]; exact hh.received⟩

theorem linked_of_reachable {history : History}
    (h : Reachable Epoll.step (Server.init history) srv) (c : Nat) : Linked srv c :=
  (h.invariant (I := fun srv => Inv srv ∧ Linked srv c)
    ⟨inv_init history, linked_init history c⟩
    fun _ _ _ hi hs => ⟨hi.1.step hs, hi.2.step hi.1 hs⟩).2

/-! ## Sessions -/

/-- Cutting a session at its logout, in frames and in messages. -/
theorem filterMap_through {fs : List (List UInt8)} (hfs : ∀ f ∈ fs, frameFormat.IsFrame f) :
    (receiver.through fs).1.filterMap unpackMessage =
        throughLogout (fs.filterMap unpackMessage) ∧
      ((receiver.through fs).2 = true ↔
        ∃ m ∈ throughLogout (fs.filterMap unpackMessage), m.kind = some .logout) := by
  induction fs with
  | nil => simp [through, throughLogout]
  | cons f fs ih =>
    obtain ⟨m, hm⟩ := exists_unpack_of_isFrame (hfs f List.mem_cons_self)
    obtain ⟨ih1, ih2⟩ := ih fun g hg => hfs g (List.mem_cons_of_mem _ hg)
    have hlast : receiver.last f = decide (m.kind = some .logout) := by
      simp [receiver, isLogout, hm]
    rw [List.filterMap_cons_some hm, throughLogout, through, hlast]
    by_cases hk : m.kind = some .logout
    · simp [hk, hm]
    · simp [hk, hm, ih1, ih2]

/-- A stream made of legal frames, the last of which may still be incomplete. -/
def LegalStream (s : List UInt8) : Prop :=
  ∃ (fs : List (List UInt8)) (t : List UInt8),
    (∀ f ∈ fs, frameFormat.IsFrame f) ∧ s ++ t = fs.flatten

theorem LegalStream.not_refused {s : List UInt8} (h : LegalStream s) :
    (frameFormat.front (frameFormat.cut s).2).isRefused = false := by
  obtain ⟨fs, t, hfs, hst⟩ := h
  have hcut := Framing.cut_flatten hfs []
  rw [List.append_nil, ← hst, Framing.cut_append_stream] at hcut
  cases hfront : frameFormat.front (frameFormat.cut s).2 with
  | short => rfl
  | frame f t => rfl
  | refused =>
    have href := Framing.front_append_refused hfront t
    have hrest : frameFormat.cut ((frameFormat.cut s).2 ++ t) = ([], (frameFormat.cut s).2 ++ t) :=
      Framing.cut_of_not_frame fun f t' hf => by rw [href] at hf; cases hf
    rw [hrest, Framing.cut_nil] at hcut
    have hnil : (frameFormat.cut s).2 ++ t = [] := congrArg Prod.snd hcut
    rw [hnil, Framing.front_eq_short_of_lt (s := []) frameFormat.header_pos] at href
    cases href

/-! ## Agreement with blocking reception -/

/-- The connection stays open on the peer's side. -/
def StaysOpen (c : Nat) (log : List Event) : Prop :=
  ∀ data ending, .arrived (some c) data ending ∈ log → ending = .read .again

/-- What was processed is what successive `recv_message` calls return on the same
stream through the first logout, and the connection was not released before it. -/
def AgreesWithBlocking (c : Nat) (log : List Event) : Prop :=
  (∀ reads, Steady reads → processedOf c log =
    throughLogout (received ((streamOf c log).length + 1) ⟨streamOf c log, reads⟩)) ∧
  (.closed (some c) ∈ log → ∃ m ∈ processedOf c log, m.kind = some .logout)

theorem over_of_staysOpen {log : List Event} (hopen : StaysOpen c log) :
    ∀ a ∈ arrivalsOf c log, a.isOver = false := by
  intro a ha
  obtain ⟨e, he, hea⟩ := List.mem_filterMap.mp ha
  cases e with
  | arrived c' data ending =>
    cases c' with
    | none => cases hea
    | some c' =>
      simp only at hea
      split at hea
      · next hc =>
        subst hc
        rw [hopen data ending he] at hea
        rw [← Option.some.inj hea]
        rfl
      · cases hea
  | _ => cases hea

/-- What was processed, in terms of the receiver and of blocking reception. -/
theorem Linked.processed_eq_iff (h : Linked srv c) :
    processedOf c srv.log =
        throughLogout ((frameFormat.cut (streamOf c srv.log)).1.filterMap unpackMessage) ↔
      (receiver.feedAll [] (arrivalsOf c srv.log)).1 =
        (receiver.through (frameFormat.cut (streamOf c srv.log)).1).1 := by
  have hlive := h.live
  have hproc := h.processed
  rw [arrivalsOf_inputLog] at hlive hproc
  rw [processedOf_inputLog] at hproc
  have hlegal : ∀ f ∈ (frameFormat.cut (streamOf c srv.log)).1, frameFormat.IsFrame f :=
    fun f hf => Framing.isFrame_of_mem_cut hf
  rw [hproc, ← (filterMap_through hlegal).1]
  refine ⟨fun heq => ?_, fun heq => by rw [heq]⟩
  obtain ⟨rest, hrest⟩ := hlive.isPrefix
  change _ = (receiver.through (frameFormat.cut (streamOf c srv.log)).1).1 at hrest
  rw [← hrest, List.filterMap_append, List.self_eq_append_right, List.filterMap_eq_nil_iff] at heq
  rcases rest with _ | ⟨f, rest⟩
  · rw [← hrest, List.append_nil]
  · have hmem : f ∈ (frameFormat.cut (streamOf c srv.log)).1 :=
      through_subset (by rw [← hrest]; simp)
    obtain ⟨m, hm⟩ := exists_unpack_of_isFrame (hlegal f hmem)
    rw [heq f List.mem_cons_self] at hm
    cases hm

theorem agrees_iff (h : Linked srv c) (hopen : StaysOpen c srv.log)
    (hlegal : LegalStream (streamOf c srv.log)) :
    AgreesWithBlocking c srv.log ↔ receiver.Fits (arrivalsOf c srv.log) := by
  have hlive := h.live
  have hclosed := h.closed
  rw [arrivalsOf_inputLog] at hlive hclosed
  rw [mem_inputLog_of_isInput rfl] at hclosed
  have hframes : ∀ f ∈ (frameFormat.cut (streamOf c srv.log)).1, frameFormat.IsFrame f :=
    fun f hf => Framing.isFrame_of_mem_cut hf
  rw [← agrees_iff_fits hlive (over_of_staysOpen hopen) hlegal.not_refused, AgreesWithBlocking]
  have hrecv : (∀ reads, Steady reads → processedOf c srv.log =
      throughLogout (received ((streamOf c srv.log).length + 1) ⟨streamOf c srv.log, reads⟩)) ↔
      processedOf c srv.log =
        throughLogout ((frameFormat.cut (streamOf c srv.log)).1.filterMap unpackMessage) := by
    constructor
    · intro hall
      rw [hall [] (by simp [Steady]), received_eq (Nat.lt_succ_self _) (by simp [Steady])]
    · intro heq reads hreads
      rw [heq, received_eq (Nat.lt_succ_self _) hreads]
  rw [hrecv, hclosed, h.processed_eq_iff]
  refine and_congr_right fun heq => imp_congr_right fun _ => ?_
  rw [h.processed_eq_iff.mpr heq]
  exact (filterMap_through hframes).2.symm

/-- A single client's burst in the trace of its connection. -/
theorem arrivals_oneBurst (history : History) (env : Env) (b : Burst) :
    ∃ srv, run step (Server.init history) (oneBurst env b) = some srv ∧
      arrivalsOf 0 srv.log = [⟨b.data, (Ending.read b.ending).isOver⟩] ∧
      ∀ data ending, .arrived (some 0) data ending ∈ srv.log → ending = .read b.ending := by
  obtain ⟨a, srv, s, hrun, ha, hf⟩ := run_oneBurst history env b
  refine ⟨srv, hrun, ?_, fun data ending hm => ?_⟩
  · rw [← arrivalsOf_inputLog, hf.arrivals, ha]
    rfl
  · rw [← mem_inputLog_of_isInput rfl, hf.log, ha, List.singleton_append, List.mem_cons,
      List.mem_cons, List.mem_append] at hm
    rcases hm with hm | hm | hm | hm
    · cases hm
    · exact (Event.arrived.inj hm).2.2
    · simp [processedEvents] at hm
    · split at hm <;> simp at hm

/-- While the peer keeps the connection open and sends legal frames, the epoll server
processes what blocking reception would return, exactly if every burst before the
end of the session fits the accumulation buffer behind what is left over in it. -/
theorem framing_agrees_iff_fits {history : History}
    (h : Reachable step (Server.init history) srv) (hopen : StaysOpen c srv.log)
    (hlegal : LegalStream (streamOf c srv.log)) :
    AgreesWithBlocking c srv.log ↔ receiver.Fits (arrivalsOf c srv.log) :=
  agrees_iff (linked_of_reachable h c) hopen hlegal

/-- A request for the user list. -/
def listRequest : Message := makeMessage 0 .listUsers [] [] []

theorem length_pack_listRequest : (packMessage listRequest).length = 76 := by
  rw [length_packMessage]
  decide

/-- Many such requests, sent without waiting. -/
def pipelined (n : Nat) : List UInt8 := (List.replicate n (packMessage listRequest)).flatten

theorem legal_pipelined (n : Nat) : LegalStream (pipelined n) := by
  refine ⟨List.replicate n (packMessage listRequest), [], fun f hf => ?_, List.append_nil _⟩
  rw [List.eq_of_mem_replicate hf]
  exact isFrame_packMessage _

theorem length_pipelined (n : Nat) : (pipelined n).length = n * 76 := by
  rw [pipelined, List.length_flatten, List.map_replicate, length_pack_listRequest,
    List.sum_replicate_nat]

/-- One burst from the start fits the buffer if it stays below its size. -/
theorem fits_singleton (a : Arrival UInt8) :
    receiver.Fits [a] ↔ a.data.length < rbufSize := by
  constructor
  · intro h
    simpa [receiver, through] using h [] a [] rfl (by simp [receiver, through])
  · intro h p b q hp _
    rcases p with _ | ⟨x, p⟩
    · obtain ⟨rfl, -⟩ := List.cons.inj hp
      simpa [receiver] using h
    · simp at hp

/-- A client that pipelines fourteen requests in one burst is served as by blocking
reception. -/
theorem framing_agrees_fourteen :
    ∃ srv, run step (Server.init fun _ => none)
        (oneBurst ⟨0, none, ⟨fun _ => [], fun _ => true⟩⟩ ⟨pipelined 14, [], .again⟩) = some srv ∧
      AgreesWithBlocking 0 srv.log := by
  obtain ⟨srv, hrun, harr, hend⟩ := arrivals_oneBurst (fun _ => none)
    ⟨0, none, ⟨fun _ => [], fun _ => true⟩⟩ ⟨pipelined 14, [], .again⟩
  refine ⟨srv, hrun, (framing_agrees_iff_fits ⟨_, hrun⟩ (fun data ending => hend data ending)
    ?_).mpr ?_⟩
  · rw [streamOf, harr]
    simpa [stream] using legal_pipelined 14
  · rw [harr, fits_singleton, length_pipelined]
    decide

/-- A client that pipelines fifteen requests in one burst is disconnected before the
first of them is processed. -/
theorem framing_disagrees_fifteen :
    ∃ srv, run step (Server.init fun _ => none)
        (oneBurst ⟨0, none, ⟨fun _ => [], fun _ => true⟩⟩ ⟨pipelined 15, [], .again⟩) = some srv ∧
      StaysOpen 0 srv.log ∧ LegalStream (streamOf 0 srv.log) ∧
      ¬ AgreesWithBlocking 0 srv.log := by
  obtain ⟨srv, hrun, harr, hend⟩ := arrivals_oneBurst (fun _ => none)
    ⟨0, none, ⟨fun _ => [], fun _ => true⟩⟩ ⟨pipelined 15, [], .again⟩
  have hlegal : LegalStream (streamOf 0 srv.log) := by
    rw [streamOf, harr]
    simpa [stream] using legal_pipelined 15
  refine ⟨srv, hrun, hend, hlegal, fun hagree => ?_⟩
  rw [agrees_iff (linked_of_reachable ⟨_, hrun⟩ 0) hend hlegal, harr, fits_singleton,
    length_pipelined] at hagree
  exact absurd hagree (by decide)

/-! ## Completeness before the release -/

/-- When the connection is released, every complete legal frame that arrived on it,
through the first logout, has been processed. -/
def CompleteBeforeClose (c : Nat) (log : List Event) : Prop :=
  ∀ pre post, log = pre ++ .closed (some c) :: post →
    processedOf c pre =
      throughLogout ((frameFormat.cut (streamOf c log)).1.filterMap unpackMessage)

/-- Nothing of a connection is processed behind its release. -/
theorem Linked.processedOf_pre (h : Linked srv c) {pre post : List Event}
    (hlog : srv.log = pre ++ .closed (some c) :: post) :
    processedOf c pre = processedOf c srv.log := by
  have hinput : srv.inputLog = pre.filter Event.isInput ++
      .closed (some c) :: post.filter Event.isInput := by
    rw [Server.inputLog, hlog, List.filter_append, List.filter_cons_of_pos rfl]
  have hpost : processedOf c post = [] := by
    rw [processedOf, List.filterMap_eq_nil_iff]
    intro e he
    have hirr := List.filter_eq_nil_iff.mp (h.last _ _ hinput) e
    cases e with
    | processed c' m =>
      cases c' with
      | none => rfl
      | some c' => simpa [Event.concerns] using hirr (List.mem_filter.mpr ⟨he, rfl⟩)
    | _ => rfl
  rw [hlog, processedOf_append, ← List.singleton_append, processedOf_append, hpost]
  exact (List.append_nil _).symm

theorem complete_iff (h : Linked srv c) :
    CompleteBeforeClose c srv.log ↔ receiver.Drained (arrivalsOf c srv.log) := by
  have hlive := h.live
  have hclosed := h.closed
  rw [arrivalsOf_inputLog] at hlive hclosed
  rw [mem_inputLog_of_isInput rfl] at hclosed
  rw [← complete_iff_drained hlive, ← hclosed]
  constructor
  · intro hall hm
    obtain ⟨pre, post, hlog⟩ := List.append_of_mem hm
    exact h.processed_eq_iff.mp ((h.processedOf_pre hlog).symm.trans (hall pre post hlog))
  · intro hall pre post hlog
    rw [h.processedOf_pre hlog, h.processed_eq_iff]
    exact hall (by rw [hlog]; simp)

/-- The logout a client sends before it shuts its connection down. -/
def logoutRequest : Message := makeMessage 0 .logout (Bytes.ascii "alice") [] []

end ChatSystem.Epoll
