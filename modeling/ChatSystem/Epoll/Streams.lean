import ChatSystem.Chat.Receivers
import ChatSystem.Epoll.Framing
import ChatSystem.Epoll.Refinement

/-!
# The byte streams of the epoll server

What arrives on a socket and what the kernel accepts for it are byte streams. Read with
`recv_message`, they are the requests and the messages of the room the server is.
-/

namespace ChatSystem.Epoll

open Channel Chat Transition Simulation

variable {srv : Server} {c : Nat} {log : List Event}

/-! ## Input -/

theorem ofConn_asked (c : Nat) (log : List Event) :
    ofConn c (log.filterMap Event.asked) = processedOf c log := by
  rw [ofConn, List.filterMap_filterMap, processedOf]
  apply List.filterMap_congr
  intro e _
  cases e with
  | processed d m => cases d <;> simp [Event.asked]
  | _ => simp [Event.asked]

/-- The messages routed for a connection are a front of those its stream carries. -/
theorem Linked.processed_isPrefix (h : Linked srv c) {reads : List Answer} (hr : Steady reads)
    {n : Nat} (hn : (streamOf c srv.log).length < n) :
    processedOf c srv.log <+: received n ⟨streamOf c srv.log, reads⟩ := by
  have hprocessed := h.processed
  have hlive := h.live
  rw [arrivalsOf_inputLog] at hprocessed hlive
  rw [processedOf_inputLog] at hprocessed
  have hcut : (receiver.feedAll [] (arrivalsOf c srv.log)).1 <+:
      (frameFormat.cut (streamOf c srv.log)).1 :=
    hlive.isPrefix.trans (Reassembly.through_isPrefix _)
  rw [hprocessed, received_eq hn hr]
  exact hcut.filterMap unpackMessage

/-! ## Output -/

theorem ofConn_sent (c : Nat) (log : List Event) :
    ofConn c (log.filterMap Event.parcel) = (callsOf c log).map fun call => canonical call.1 := by
  rw [ofConn, List.filterMap_filterMap, callsOf, List.map_filterMap]
  apply List.filterMap_congr
  intro e _
  cases e with
  | queued d m k =>
    cases d with
    | none => simp [Event.parcel]
    | some d => by_cases hd : d = c <;> simp [Event.parcel, hd]
  | _ => simp [Event.parcel]

/-- The messages a connection keeps, in the words of the room. -/
theorem kept_sublist (c : Nat) (log : List Event) :
    ((keptFor c log).map canonical).Sublist (ofConn c (log.filterMap Event.parcel)) := by
  have hcalls : ((callsOf c log).map fun call => canonical call.1) =
      ((callsOf c log).map Prod.fst).map canonical := by
    rw [List.map_map]
    rfl
  rw [ofConn_sent, hcalls]
  exact (List.filter_sublist.map _).map _

theorem kept_eq_of_none_dropped (h : ∀ call ∈ callsOf c log, dropped call = false) :
    (keptFor c log).map canonical = ofConn c (log.filterMap Event.parcel) := by
  have hall : (callsOf c log).filter (fun call => !dropped call) = callsOf c log := by
    rw [List.filter_eq_self]
    intro call hcall
    simp [h call hcall]
  rw [ofConn_sent, keptFor, hall, List.map_map]
  rfl

/-! ## Both -/

/-- The sockets carry what the room takes in and sends. In every run there are events of the
room, those of a wake-up in its surroundings, such that for every connection the requests in
them are a front of what `recv_message` calls return on the bytes that arrived, and what such
calls return at the client, on the bytes accepted for it, is a front of the messages the room
sends it, without those dropped for want of room. -/
theorem sockets_carry_room {history : History} {ls : List Label}
    (h : run step (Server.init history) ls = some srv) :
    ∃ ess, List.Forall₂ (fun l es => ∀ e ∈ es, e.env = l.env) ls ess ∧
      roomAfter .epoll history ess.flatten = srv.room ∧
      ∀ c reads, Steady reads →
        (∀ n, (streamOf c srv.log).length < n →
          ofConn c (ess.flatten.filterMap Chat.Event.asked) <+:
            received n ⟨streamOf c srv.log, reads⟩) ∧
        (∀ n, (srv.kernel.wire c).length < n → ∃ kept,
          received n ⟨srv.kernel.wire c, reads⟩ <+: kept ∧
          kept.Sublist (ofConn c ((sentAt .epoll history ess.flatten).map Sent.parcel)) ∧
          ((∀ call ∈ callsOf c srv.log, dropped call = false) →
            kept = ofConn c ((sentAt .epoll history ess.flatten).map Sent.parcel))) := by
  obtain ⟨ess, hall, hess⟩ := matches_of_run h
  have himp : Implements .epoll history ess.flatten srv.room srv.asked srv.sent :=
    implements_of_matches hess rfl rfl rfl
  refine ⟨ess, hall, himp.room, fun c reads hr => ⟨fun n hn => ?_, fun n hn => ?_⟩⟩
  · rw [himp.asked, Server.asked, ofConn_asked]
    exact (linked_of_reachable ⟨ls, h⟩ c).processed_isPrefix hr hn
  · have hok : OutputOk srv :=
      (Reachable.invariant (I := fun srv => Inv srv ∧ OutputOk srv) ⟨ls, h⟩
        ⟨inv_init history, outputOk_init history⟩
        fun s l t hi hs => ⟨hi.1.step hs, hi.2.step hi.1 hs⟩).2
    rw [himp.sent, Server.sent]
    exact ⟨_, received_isPrefix (hok.isPrefix c) hr hn, kept_sublist c srv.log,
      kept_eq_of_none_dropped⟩

/-- The request of the single client is on its stream. -/
theorem sockets_carry_room_oneBurst :
    ∃ (srv : Server) (ess : List (List Chat.Event)),
      run step (Server.init fun _ => none) (oneBurst plainEnv
        ⟨packMessage (makeMessage 7 .listUsers [] [] []), [9], .again⟩) = some srv ∧
      ofConn 0 (ess.flatten.filterMap Chat.Event.asked) <+:
        received ((streamOf 0 srv.log).length + 1) ⟨streamOf 0 srv.log, [.eintr, .chunk 3]⟩ := by
  obtain ⟨a, srv, s, hrun, -, -⟩ := run_oneBurst (fun _ => none) plainEnv
    ⟨packMessage (makeMessage 7 .listUsers [] [] []), [9], .again⟩
  obtain ⟨ess, -, -, h⟩ := sockets_carry_room hrun
  have hsteady : Steady [.eintr, .chunk 3] := by simp [Steady]
  exact ⟨srv, ess, hrun, (h 0 _ hsteady).1 _ (Nat.lt_succ_self _)⟩

end ChatSystem.Epoll
