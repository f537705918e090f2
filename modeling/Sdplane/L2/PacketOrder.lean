import Sdplane.L2.DataPath

/-!
# The order of the packets

Over any interleaving, what goes out of a port or to a tap are packets that came in, each at most
once and in their order, and a received packet does not go out of the port it came in on.
-/

namespace Sdplane

/-! ## What the loops over the ports change -/

theorem forEach_tx (lcoreId nbPorts : Nat) (round : Nat → TxQueue → TxQueue)
    (tx : Nat × Nat → TxQueue) (p l : Nat) :
    forEach (fun _ p tx => Function.update tx (p, lcoreId) (round p (tx (p, lcoreId))))
        0 (List.range nbPorts) tx (p, l) =
      if l = lcoreId ∧ p < nbPorts then round p (tx (p, l)) else tx (p, l) := by
  have inj : Function.Injective fun p : Nat => (p, lcoreId) := fun _ _ same => (Prod.ext_iff.mp same).1
  obtain ⟨inside, outside⟩ := forEach_update inj round 0 (List.nodup_range (n := nbPorts)) tx (p, l)
  split
  · next here =>
      obtain ⟨rfl, hp⟩ := here
      exact inside p (List.mem_range.mpr hp) rfl
  · next elsewhere =>
      apply outside
      intro a ha same
      cases same
      exact elsewhere ⟨rfl, List.mem_range.mp ha⟩

namespace DataPath

section
variable (s : DataPath) (env : RepeaterEnv) (info : RibInfo)

theorem rxFrame_tx (answers : RepeatFrame) (accepted : Nat → Nat) (f : RxPkt) (fs : List RxPkt)
    (p l : Nat) :
    (s.rxFrame env info answers accepted f fs).tx (p, l) =
      if l = env.lcoreId ∧ (Handled.mk env info f answers).repeatedTo p then
        (s.tx (p, l)).put (accepted p) f
      else s.tx (p, l) := by
  refine (forEach_tx env.lcoreId env.nbPorts (fun txPortid t =>
    if env.repeats info f.port txPortid && answers.copied txPortid then t.put (accepted txPortid) f
    else t) s.tx p l).trans ?_
  simp only [Handled.repeatedTo, Bool.and_eq_true, decide_eq_true_iff]
  by_cases here : l = env.lcoreId ∧ p < env.nbPorts
  · rw [if_pos here]
    simp only [here, true_and]
  · rw [if_neg here, if_neg fun all => here ⟨all.1, all.2.1⟩]

theorem txFlush_tx (accepted : Nat → Nat) (p l : Nat) :
    (s.txFlush env accepted).tx (p, l) =
      if l = env.lcoreId ∧ p < env.nbPorts ∧ env.txBuffer p env.lcoreId then
        (s.tx (p, l)).flush (accepted p)
      else s.tx (p, l) := by
  refine (forEach_tx env.lcoreId env.nbPorts (fun portid t =>
    if env.txBuffer portid env.lcoreId then t.flush (accepted portid) else t) s.tx p l).trans ?_
  by_cases here : l = env.lcoreId ∧ p < env.nbPorts
  · rw [if_pos here]
    simp only [here, true_and]
  · rw [if_neg here, if_neg fun all => here ⟨all.1, all.2.1⟩]

end

end DataPath

/-! ## What is written to the taps -/

section
variable (fds : TapFds)

/-- A packet is written to each tap once or not at all. -/
theorem tapHandlerWrite_packet (ok : TapTarget → Bool) (f : RxPkt)
    (written : TapTarget → List RxPkt) (t : TapTarget) :
    ∃ new, new.Sublist [f] ∧
      tapHandlerWritePortAll fds ok f (tapHandlerWritePeek fds ok f written) t = written t ++ new := by
  have once (c : Prop) [Decidable c] (w : List RxPkt) :
      ∃ new, new.Sublist [f] ∧ (if c then w ++ [f] else w) = w ++ new := by
    by_cases h : c
    · exact ⟨[f], .refl _, if_pos h⟩
    · exact ⟨[], List.nil_sublist _, by rw [if_neg h, List.append_nil]⟩
  have inj : Function.Injective TapTarget.port := fun _ _ same => TapTarget.port.inj same
  obtain ⟨inside, outside⟩ := forEach_update inj
    (fun portid w => if 0 ≤ fds.portFd portid ∧ ok (.port portid) then w ++ [f] else w) 0
    (List.nodup_range (n := fds.nbPorts)) (tapHandlerWritePeek fds ok f written) t
  cases t with
  | capture =>
      have peek := outside fun _ _ same => by cases same
      obtain ⟨new, sub, eq⟩ := once (0 ≤ fds.captureFd ∧ ok .capture) (written .capture)
      refine ⟨new, sub, peek.trans ?_⟩
      rw [← eq, tapHandlerWritePeek]
      split
      · exact Function.update_self ..
      · rfl
  | port p =>
      have kept : tapHandlerWritePeek fds ok f written (.port p) = written (.port p) := by
        rw [tapHandlerWritePeek]
        split
        · exact Function.update_of_ne (fun same => by cases same) _ _
        · rfl
      by_cases hp : p < fds.nbPorts
      · obtain ⟨new, sub, eq⟩ := once (0 ≤ fds.portFd p ∧ ok (.port p)) (written (.port p))
        refine ⟨new, sub, (inside p (List.mem_range.mpr hp) rfl).trans ?_⟩
        rw [kept, eq]
      · refine ⟨[], List.nil_sublist _, (outside ?_).trans ?_⟩
        · intro a ha same
          cases same
          exact hp (List.mem_range.mp ha)
        · rw [kept, List.append_nil]

/-- What came out of a ring is written to each tap in its order, each packet at most once. -/
theorem tapHandlerWrite_spec (ok : Nat → TapTarget → Bool) (i : Nat) (es : List (Option RxPkt))
    (written : TapTarget → List RxPkt) (t : TapTarget) :
    ∃ new, new.Sublist (es.filterMap id) ∧
      tapHandlerWrite fds ok i es written t = written t ++ new := by
  induction es generalizing i written with
  | nil => exact ⟨[], .slnil, (List.append_nil _).symm⟩
  | cons e es ih =>
      cases e with
      | none =>
          obtain ⟨new, sub, eq⟩ := ih (i + 1) written
          exact ⟨new, sub, eq⟩
      | some f =>
          obtain ⟨first, sub, eq⟩ := tapHandlerWrite_packet fds (ok i) f written t
          obtain ⟨rest, sub', eq'⟩ := ih (i + 1)
            (tapHandlerWritePortAll fds (ok i) f (tapHandlerWritePeek fds (ok i) f written))
          refine ⟨first ++ rest, ?_, ?_⟩
          · exact sub.append sub'
          · rw [← List.append_assoc, ← eq]
            exact eq'

end

/-! ## Received packets -/

namespace DataPath

/-- What the lcores received is what they are through with and the rest of their bursts. What
    they are through with has been offered to the tx buffers and the rings up, with nothing
    else, and what was written to the taps came out of the rings up. -/
structure RxOrder (s : DataPath) : Prop where
  received : ∀ l, s.received l = (s.handled l).map Handled.pkt ++ s.burst l
  lcore : ∀ l, ∀ f ∈ s.received l, f.lcore = l
  offered : ∀ p l, (s.tx (p, l)).buffer.offered =
    ((s.handled l).filter (·.repeatedTo p)).map Handled.pkt
  ringUp : ∀ p q l, ((s.ringUp (p, q)).offered.filterMap id).filter (·.lcore == l) =
    ((s.handled l).filter (·.tappedAs p q)).map Handled.pkt
  written : ∀ t p q, ((s.written t).filter (·.on p q)).Sublist
    ((s.ringUp (p, q)).given.filterMap id)

namespace RxOrder

variable {s : DataPath}

theorem initial : RxOrder .initial where
  received := fun _ => rfl
  lcore := fun _ _ none => absurd none List.not_mem_nil
  offered := fun _ _ => rfl
  ringUp := fun _ _ _ => rfl
  written := fun _ _ _ => .slnil

theorem rxFrame (h : s.RxOrder) (env : RepeaterEnv) (info : RibInfo) (answers : RepeatFrame)
    (accepted : Nat → Nat) {f : RxPkt} {fs : List RxPkt} (burst : s.burst env.lcoreId = f :: fs) :
    (s.rxFrame env info answers accepted f fs).RxOrder := by
  have handled : ∀ l, (s.rxFrame env info answers accepted f fs).handled l =
      s.handled l ++ if l = env.lcoreId then [⟨env, info, f, answers⟩] else [] := by
    intro l
    by_cases here : l = env.lcoreId
    · subst here
      rw [if_pos rfl]
      exact Function.update_self ..
    · rw [if_neg here, List.append_nil]
      exact Function.update_of_ne here _ _
  have mine : f.lcore = env.lcoreId := by
    apply h.lcore
    rw [h.received, burst]
    exact List.mem_append_right _ List.mem_cons_self
  constructor
  · intro l
    rw [handled]
    by_cases here : l = env.lcoreId
    · subst here
      have rest : (s.rxFrame env info answers accepted f fs).burst env.lcoreId = fs :=
        Function.update_self ..
      have before := h.received env.lcoreId
      rw [burst] at before
      rw [if_pos rfl, rest, List.map_append, List.append_assoc]
      exact before
    · have rest : (s.rxFrame env info answers accepted f fs).burst l = s.burst l :=
        Function.update_of_ne here _ _
      rw [if_neg here, rest, List.append_nil]
      exact h.received l
  · exact h.lcore
  · intro p l
    rw [rxFrame_tx, handled, List.filter_append, List.map_append, ← h.offered]
    by_cases here : l = env.lcoreId
    · subst here
      cases copied : (Handled.mk env info f answers).repeatedTo p with
      | true => simp [copied]
      | false => simp [copied]
    · simp [here]
  · intro p q l
    rw [handled, List.filter_append, List.map_append, ← h.ringUp]
    change (((Function.update s.ringUp (f.port, f.queue) _ (p, q)).offered.filterMap id).filter _) = _
    by_cases same : (p, q) = (f.port, f.queue)
    · cases same
      rw [Function.update_self, Channel.put_offered, List.filterMap_append, List.filter_append]
      apply congrArg
      by_cases here : l = env.lcoreId
      · subst here
        cases copy : answers.tap.copied with
        | true => simp [Handled.tappedAs, RxPkt.on, copy, mine]
        | false => simp [Handled.tappedAs, RxPkt.on, copy]
      · have other : ¬ env.lcoreId = l := fun eq => here eq.symm
        cases copy : answers.tap.copied with
        | true => simp [here, mine, other]
        | false => simp [here]
    · have off : f.on p q = false := by
        rw [RxPkt.on, Bool.and_eq_false_iff, beq_eq_false_iff_ne, beq_eq_false_iff_ne]
        by_contra both
        push Not at both
        exact same (Prod.ext both.1.symm both.2.symm)
      rw [Function.update_of_ne same]
      by_cases here : l = env.lcoreId
      · simp [here, Handled.tappedAs, off]
      · simp [here]
  · intro t p q
    change ((s.written t).filter _).Sublist
      ((Function.update s.ringUp (f.port, f.queue) _ (p, q)).given.filterMap id)
    by_cases same : (p, q) = (f.port, f.queue)
    · rw [same, Function.update_self, Channel.put_given, ← same]
      exact h.written t p q
    · rw [Function.update_of_ne same]
      exact h.written t p q

theorem rxBurst (h : s.RxOrder) (l : Nat) {fs : List RxPkt} (through : s.burst l = [])
    (mine : ∀ f ∈ fs, f.lcore = l) :
    RxOrder { s with
      burst := Function.update s.burst l fs
      received := Function.update s.received l (s.received l ++ fs) } where
  received := by
    intro l'
    change Function.update s.received l _ l' = _ ++ Function.update s.burst l fs l'
    by_cases here : l' = l
    · subst here
      rw [Function.update_self, Function.update_self, h.received, through, List.append_nil]
    · rw [Function.update_of_ne here, Function.update_of_ne here]
      exact h.received l'
  lcore := by
    intro l' f mem
    change f ∈ Function.update s.received l _ l' at mem
    by_cases here : l' = l
    · subst here
      rw [Function.update_self, List.mem_append] at mem
      exact mem.elim (h.lcore l' f) (mine f)
    · rw [Function.update_of_ne here] at mem
      exact h.lcore l' f mem
  offered := h.offered
  ringUp := h.ringUp
  written := h.written

/-- A step that offers nothing to the tx buffers. -/
theorem tx (h : s.RxOrder) {tx' : Nat × Nat → TxQueue} (ringDn' : Nat × Nat → Channel (List Byte))
    (same : ∀ k, (tx' k).buffer.offered = (s.tx k).buffer.offered) :
    RxOrder { s with ringDn := ringDn', tx := tx' } where
  received := h.received
  lcore := h.lcore
  offered := fun p l => (same (p, l)).trans (h.offered p l)
  ringUp := h.ringUp
  written := h.written

/-- What is in the ring up of a queue came in on it. -/
theorem on_of_ringUp (h : s.RxOrder) {p q : Nat} {f : RxPkt}
    (mem : f ∈ (s.ringUp (p, q)).offered.filterMap id) : f.on p q = true := by
  have mine : f ∈ ((s.ringUp (p, q)).offered.filterMap id).filter (·.lcore == f.lcore) :=
    List.mem_filter.mpr ⟨mem, beq_self_eq_true _⟩
  rw [h.ringUp, List.mem_map] at mine
  obtain ⟨g, tapped, rfl⟩ := mine
  exact (Bool.and_eq_true_iff.mp (List.mem_filter.mp tapped).2).1

theorem packetUp (h : s.RxOrder) (v : VswitchPort) (dequeued : Nat) (fds : TapFds)
    (ok : Nat → TapTarget → Bool) : (s.packetUp v dequeued fds ok).RxOrder where
  received := h.received
  lcore := h.lcore
  offered := h.offered
  ringUp := by
    intro p q l
    change (((Function.update s.ringUp _ _ (p, q)).offered.filterMap id).filter _) = _
    by_cases here : (p, q) = (v.dpdkPortId, v.dpdkQueueId)
    · rw [here, Function.update_self, Channel.take_offered, ← here]
      exact h.ringUp p q l
    · rw [Function.update_of_ne here]
      exact h.ringUp p q l
  written := by
    intro t p q
    obtain ⟨new, sub, eq⟩ := tapHandlerWrite_spec fds ok 0
      ((s.ringUp (v.dpdkPortId, v.dpdkQueueId)).held.take dequeued) s.written t
    change (List.filter _ (tapHandlerWrite fds ok 0 _ s.written t)).Sublist
      ((Function.update s.ringUp _ _ (p, q)).given.filterMap id)
    rw [eq, List.filter_append]
    have came : ∀ f ∈ new, f.on v.dpdkPortId v.dpdkQueueId = true := by
      intro f mem
      apply h.on_of_ringUp
      have taken := sub.subset mem
      rw [List.mem_filterMap] at taken ⊢
      obtain ⟨e, mem', some'⟩ := taken
      refine ⟨e, (s.ringUp _).inOrder.subset (List.mem_append_right _ ?_), some'⟩
      exact List.mem_of_mem_take mem'
    by_cases here : (p, q) = (v.dpdkPortId, v.dpdkQueueId)
    · cases here
      rw [Function.update_self, Channel.take_given, List.filterMap_append]
      exact (h.written t _ _).append (List.filter_sublist.trans sub)
    · have none : new.filter (·.on p q) = [] := by
        rw [List.filter_eq_nil_iff]
        intro f mem on
        have other := came f mem
        simp only [RxPkt.on, Bool.and_eq_true, beq_iff_eq] at on other
        exact here (Prod.ext (on.1.symm.trans other.1) (on.2.symm.trans other.2))
      rw [Function.update_of_ne here, none, List.append_nil]
      exact h.written t p q

theorem step (h : s.RxOrder) {a : DataPathAct} {s' : DataPath} (taken : s.step a = some s') :
    s'.RxOrder := by
  cases a with
  | rxBurst env info q pkts =>
      simp only [DataPath.step] at taken
      split at taken
      · next can =>
          cases taken
          refine h.rxBurst env.lcoreId (List.isEmpty_iff.mp can.1) ?_
          intro f mem
          obtain ⟨d, -, rfl⟩ := List.mem_map.mp mem
          rfl
      · cases taken
  | rxFrame env info answers accepted =>
      simp only [DataPath.step] at taken
      split at taken
      · cases taken
      · next burst =>
          cases taken
          exact h.rxFrame env info answers accepted burst
  | txFlush env accepted =>
      cases taken
      refine h.tx s.ringDn fun k => ?_
      have flushed := txFlush_tx s env accepted k.1 k.2
      refine (congrArg (fun t => t.buffer.offered) flushed).trans ?_
      split <;> rfl
  | txBurst env info q dequeued accepted =>
      simp only [DataPath.step] at taken
      split at taken
      · cases taken
        refine h.tx _ fun k => ?_
        by_cases here : k = (q.portId, env.lcoreId)
        · rw [here, Function.update_self]
          rfl
        · rw [Function.update_of_ne here]
      · cases taken
  | packetUp v dequeued fds ok =>
      simp only [DataPath.step] at taken
      split at taken
      · cases taken
        exact h.packetUp v dequeued fds ok
      · cases taken
  | packetRead ports data residual =>
      simp only [DataPath.step] at taken
      split at taken
      · cases taken
        exact { h with }
      · cases taken
  | packetPut room =>
      simp only [DataPath.step] at taken
      split at taken
      · cases taken
      · cases taken
        exact { h with }

end RxOrder

/-- What goes out of a port by way of a tx buffer are packets that the lcore received on other
    ports, and what is written to a tap are packets that were received, both in the order
    in which the lcore received them and each at most once. A tx buffer from which nothing was
    dropped has sent or holds a copy of every packet that was to be repeated to its port, and a
    ring up that never was full has given or holds all copies made for it. -/
structure Forwards (s : DataPath) : Prop where
  repeated : ∀ p l, ((s.tx (p, l)).sent.filterMap TxPkt.repeated?).Sublist
    ((s.received l).filter (·.port != p))
  whole : ∀ p l, (s.tx (p, l)).buffer.lost = 0 →
    (s.tx (p, l)).sent.filterMap TxPkt.repeated? ++ (s.tx (p, l)).buffer.held =
      ((s.handled l).filter (·.repeatedTo p)).map Handled.pkt
  wholeUp : ∀ p q l, (s.ringUp (p, q)).lost = 0 →
    (((s.ringUp (p, q)).given ++ (s.ringUp (p, q)).held).filterMap id).filter (·.lcore == l) =
      ((s.handled l).filter (·.tappedAs p q)).map Handled.pkt
  tapped : ∀ t p q l, ((s.written t).filter fun f => f.on p q && f.lcore == l).Sublist
    ((s.received l).filter (·.on p q))

theorem RxOrder.forwards {s : DataPath} (h : s.RxOrder) : s.Forwards where
  repeated := by
    intro p l
    have other : ∀ g : Handled, g.repeatedTo p = true → (g.pkt.port != p) = true := by
      intro g copied
      simp only [Handled.repeatedTo, RepeaterEnv.repeats, Bool.and_eq_true] at copied
      exact copied.2.1.1.1
    rw [(s.tx (p, l)).repeated]
    refine (s.tx (p, l)).buffer.given_sublist.trans ?_
    rw [h.offered, h.received, List.filter_append, List.filter_map]
    refine List.Sublist.trans ?_ (List.sublist_append_left _ _)
    exact (List.monotone_filter_right (s.handled l) other).map Handled.pkt
  whole := by
    intro p l none
    rw [(s.tx (p, l)).repeated, (s.tx (p, l)).buffer.eq_offered_of_lost none, h.offered]
  wholeUp := by
    intro p q l none
    rw [(s.ringUp (p, q)).eq_offered_of_lost none, h.ringUp]
  tapped := by
    intro t p q l
    have out := (h.written t p q).filter (·.lcore == l)
    rw [List.filter_filter] at out
    have given := (s.ringUp (p, q)).given_sublist.filterMap id
    have mine := out.trans (given.filter (·.lcore == l))
    rw [h.ringUp] at mine
    have same : (s.written t).filter (fun f => f.on p q && f.lcore == l) =
        (s.written t).filter fun f => f.lcore == l && f.on p q :=
      List.filter_congr fun f _ => Bool.and_comm _ _
    rw [same, h.received, List.filter_append, List.filter_map]
    refine mine.trans (List.Sublist.trans ?_ (List.sublist_append_left _ _))
    refine (List.monotone_filter_right (s.handled l) fun g tapped => ?_).map Handled.pkt
    exact (Bool.and_eq_true_iff.mp tapped).1

/-- In every state of every run, received packets are forwarded as they came in. -/
theorem throughout_forwards (acts : List DataPathAct) :
    Throughout DataPath.step DataPath.Forwards .initial acts :=
  throughout_of_keeps (P := RxOrder) (fun _ _ _ h taken => h.step taken) (fun _ h => h.forwards)
    acts .initial

/-! ## Packets of the taps -/

/-- How often the packet is put into the ring. -/
def copiesFor (r : TapRead) (k : Nat × Nat) : List (List Byte) :=
  List.replicate (r.rings.count k) r.packet

/-- The rings down have been offered what was read from the taps, but for what the packet read last
    is still for. What each lcore sent of it is of its own part of what came out. -/
structure TapOrder (s : DataPath) : Prop where
  packets : ∀ r ∈ s.reads, r.packet = r.data
  offered : ∀ k, (s.ringDn k).offered ++ copiesFor s.pending k = s.reads.flatMap (copiesFor · k)
  sent : ∀ p q, ∃ out : List (Nat × List Byte), out.map Prod.snd = (s.ringDn (p, q)).given ∧
    ∀ l, ((s.tx (p, l)).sentFromTap q).Sublist ((out.filter (·.1 == l)).map Prod.snd)

namespace TapOrder

variable {s : DataPath}

theorem initial : TapOrder .initial where
  packets := fun _ none => absurd none List.not_mem_nil
  offered := fun _ => rfl
  sent := fun _ _ => ⟨[], rfl, fun _ => .slnil⟩

/-- A step that sends nothing of the taps. -/
theorem keeps (h : s.TapOrder) {s' : DataPath} (reads : s'.reads = s.reads)
    (pending : s'.pending = s.pending) (ringDn : s'.ringDn = s.ringDn)
    (tx : ∀ k q, (s'.tx k).sentFromTap q = (s.tx k).sentFromTap q) : s'.TapOrder where
  packets := by
    rw [reads]
    exact h.packets
  offered := by
    rw [reads, pending, ringDn]
    exact h.offered
  sent := by
    intro p q
    obtain ⟨out, given, mine⟩ := h.sent p q
    refine ⟨out, by rw [ringDn]; exact given, fun l => ?_⟩
    rw [tx]
    exact mine l

theorem txBurst (h : s.TapOrder) (env : RepeaterEnv) (q : PortQueueConf) (dequeued accepted : Nat) :
    (s.txBurst env q dequeued accepted).TapOrder := by
  have ring : ∀ k, (s.txBurst env q dequeued accepted).ringDn k =
      if k = (q.portId, q.queueId) then (s.ringDn k).take dequeued else s.ringDn k := by
    intro k
    split
    · next here =>
        rw [here]
        exact Function.update_self ..
    · next elsewhere => exact Function.update_of_ne elsewhere _ _
  have queue : ∀ k q', ((s.txBurst env q dequeued accepted).tx k).sentFromTap q' =
      (s.tx k).sentFromTap q' ++ if k = (q.portId, env.lcoreId) ∧ q.queueId = q' then
        ((s.ringDn (q.portId, q.queueId)).held.take dequeued).take accepted else [] := by
    intro k q'
    by_cases here : k = (q.portId, env.lcoreId)
    · rw [here]
      refine (congrArg (TxQueue.sentFromTap · q') (Function.update_self ..)).trans ?_
      rw [TxQueue.burst_sentFromTap]
      simp only [true_and]
    · rw [if_neg fun all => here all.1, List.append_nil]
      exact congrArg (TxQueue.sentFromTap · q') (Function.update_of_ne here _ _)
  refine ⟨h.packets, ?_, ?_⟩
  · intro k
    have same : ((s.txBurst env q dequeued accepted).ringDn k).offered = (s.ringDn k).offered := by
      rw [ring]
      split <;> rfl
    rw [same]
    exact h.offered k
  · intro p q'
    obtain ⟨out, given, mine⟩ := h.sent p q'
    by_cases here : (p, q') = (q.portId, q.queueId)
    · cases here
      refine ⟨out ++ ((s.ringDn (q.portId, q.queueId)).held.take dequeued).map
        fun d => (env.lcoreId, d), ?_, fun l => ?_⟩
      · rw [ring, if_pos rfl, List.map_append, given, List.map_map, Channel.take_given]
        exact congrArg _ (List.map_id _)
      · rw [queue, List.filter_append, List.map_append]
        refine (mine l).append ?_
        by_cases me : l = env.lcoreId
        · have all : (((s.ringDn (q.portId, q.queueId)).held.take dequeued).map
              fun d => (env.lcoreId, d)).filter (fun e => e.1 == l) =
                ((s.ringDn (q.portId, q.queueId)).held.take dequeued).map fun d => (env.lcoreId, d) := by
            rw [List.filter_eq_self]
            intro e mem
            obtain ⟨d, -, rfl⟩ := List.mem_map.mp mem
            exact beq_iff_eq.mpr me.symm
          have ids : (((s.ringDn (q.portId, q.queueId)).held.take dequeued).map
              fun d => (env.lcoreId, d)).map Prod.snd =
                (s.ringDn (q.portId, q.queueId)).held.take dequeued :=
            (List.map_map ..).trans (List.map_id _)
          rw [all, ids, me, if_pos ⟨rfl, rfl⟩]
          exact List.take_sublist _ _
        · rw [if_neg fun all => me (Prod.ext_iff.mp all.1).2]
          exact List.nil_sublist _
    · refine ⟨out, by rw [ring, if_neg here]; exact given, fun l => ?_⟩
      have other : ¬ ((p, l) = (q.portId, env.lcoreId) ∧ q.queueId = q') := by
        rintro ⟨same, rfl⟩
        exact here (Prod.ext (Prod.ext_iff.mp same).1 rfl)
      rw [queue, if_neg other, List.append_nil]
      exact mine l

theorem step (h : s.TapOrder) {a : DataPathAct} {s' : DataPath} (taken : s.step a = some s') :
    s'.TapOrder := by
  cases a with
  | rxBurst env info q pkts =>
      simp only [DataPath.step] at taken
      split at taken
      · cases taken
        exact { h with }
      · cases taken
  | rxFrame env info answers accepted =>
      simp only [DataPath.step] at taken
      split at taken
      · cases taken
      · next f fs burst =>
          cases taken
          refine h.keeps rfl rfl rfl fun k q => ?_
          have queue := rxFrame_tx s env info answers accepted f fs k.1 k.2
          refine (congrArg (TxQueue.sentFromTap · q) queue).trans ?_
          split
          · exact TxQueue.put_sentFromTap ..
          · rfl
  | txFlush env accepted =>
      cases taken
      refine h.keeps rfl rfl rfl fun k q => ?_
      have queue := txFlush_tx s env accepted k.1 k.2
      refine (congrArg (TxQueue.sentFromTap · q) queue).trans ?_
      split
      · exact TxQueue.flush_sentFromTap ..
      · rfl
  | txBurst env info q dequeued accepted =>
      simp only [DataPath.step] at taken
      split at taken
      · cases taken
        exact h.txBurst env q dequeued accepted
      · cases taken
  | packetUp v dequeued fds ok =>
      simp only [DataPath.step] at taken
      split at taken
      · cases taken
        exact { h with }
      · cases taken
  | packetRead ports data residual =>
      simp only [DataPath.step] at taken
      split at taken
      · next through =>
          cases taken
          refine ⟨fun r mem => ?_, fun k => ?_, h.sent⟩
          · rcases List.mem_append.mp mem with before | now
            · exact h.packets r before
            · rw [List.mem_singleton.mp now]
              exact tapPacket_eq residual through.2
          have before := h.offered k
          rw [copiesFor, List.isEmpty_iff.mp through.1, List.count_nil, List.replicate_zero,
            List.append_nil] at before
          rw [before, List.flatMap_append, List.flatMap_singleton]
      · cases taken
  | packetPut room =>
      simp only [DataPath.step] at taken
      split at taken
      · cases taken
      · next k ks pending =>
          cases taken
          refine ⟨h.packets, ?_, ?_⟩
          · intro k'
            have before := h.offered k'
            rw [copiesFor, pending] at before
            change (Function.update s.ringDn k _ k').offered ++ _ = _
            by_cases here : k' = k
            · subst here
              rw [List.count_cons_self, List.replicate_succ, List.append_cons] at before
              rw [Function.update_self, Channel.put_offered]
              exact before
            · rw [List.count_cons_of_ne fun same => here same.symm] at before
              rw [Function.update_of_ne here]
              exact before
          · intro p q
            obtain ⟨out, given, mine⟩ := h.sent p q
            refine ⟨out, ?_, mine⟩
            rw [given]
            change _ = (Function.update s.ringDn k _ (p, q)).given
            by_cases here : (p, q) = k
            · rw [here, Function.update_self, Channel.put_given]
            · rw [Function.update_of_ne here]

end TapOrder

/-- What the lcores send of the taps' packets through the ring of a queue is what was read from the
    taps, as often as the queue was in the table and in the order it was read, and no copy is sent
    by two of them. A ring that never was full has given or holds all copies. -/
structure SendsTaps (s : DataPath) : Prop where
  packets : ∀ r ∈ s.reads, r.packet = r.data
  sent : ∀ p q, ∃ out : List (Nat × List Byte),
    (out.map Prod.snd).Sublist (s.reads.flatMap (copiesFor · (p, q))) ∧
      ∀ l, ((s.tx (p, l)).sentFromTap q).Sublist ((out.filter (·.1 == l)).map Prod.snd)
  whole : ∀ k, (s.ringDn k).lost = 0 →
    (s.ringDn k).given ++ (s.ringDn k).held ++ copiesFor s.pending k =
      s.reads.flatMap (copiesFor · k)

theorem TapOrder.sendsTaps {s : DataPath} (h : s.TapOrder) : s.SendsTaps where
  packets := h.packets
  sent := by
    intro p q
    obtain ⟨out, given, mine⟩ := h.sent p q
    refine ⟨out, ?_, mine⟩
    rw [given, ← h.offered]
    exact (s.ringDn (p, q)).given_sublist.trans (List.sublist_append_left _ _)
  whole := by
    intro k none
    rw [(s.ringDn k).eq_offered_of_lost none, h.offered]

/-- In every state of every run, the packets of the taps are sent as they were read. -/
theorem throughout_sendsTaps (acts : List DataPathAct) :
    Throughout DataPath.step DataPath.SendsTaps .initial acts :=
  throughout_of_keeps (P := TapOrder) (fun _ _ _ h taken => h.step taken) (fun _ h => h.sendsTaps)
    acts .initial

end DataPath

end Sdplane
