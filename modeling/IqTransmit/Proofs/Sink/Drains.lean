import IqTransmit.Proofs.Sink.Operation

/-!
Drains that find their slots. As long as they ask for whole slots, and for no more of these than
were queued at first, each is answered with the next slot in the queue, whatever is pushed between
them.
-/

namespace IqTransmit

variable {E : Type}

theorem SlotRing.isEmpty_of_pos {r : SlotRing} (h : 0 < r.len) : r.isEmpty = false := by
  simp only [isEmpty, beq_eq_false_iff_ne]
  exact Nat.ne_of_gt h

namespace Feed

variable {f g h : Feed} {given given' : List (Drainer × Delivery)}

/-- Between two feeds the drains `given` were each answered with a slot, and none with silence. -/
structure Fulfilled (f g : Feed) (given : List (Drainer × Delivery)) : Prop where
  flow : ∃ pushed, Flow f g pushed (given.map (·.2.bytes))
  deliveries_eq : g.deliveries = f.deliveries ++ given
  proceeds : ∀ answer ∈ given, answer.2.status = .proceed
  underruns_eq : g.stats.underruns = f.stats.underruns

theorem Fulfilled.refl (hf : f.ring.Sound) : Fulfilled f f [] :=
  ⟨⟨[], .refl hf⟩, (List.append_nil _).symm, fun _ hnil => absurd hnil List.not_mem_nil, rfl⟩

theorem Fulfilled.trans (hfg : Fulfilled f g given) (hgh : Fulfilled g h given') :
    Fulfilled f h (given ++ given') := by
  obtain ⟨pushed, hflow⟩ := hfg.flow
  obtain ⟨pushed', hflow'⟩ := hgh.flow
  refine ⟨⟨pushed ++ pushed', ?_⟩, ?_, ?_, hgh.underruns_eq.trans hfg.underruns_eq⟩
  · rw [List.map_append]
    exact hflow.trans hflow'
  · rw [hgh.deliveries_eq, hfg.deliveries_eq, List.append_assoc]
  · intro answer hmem
    rcases List.mem_append.mp hmem with hmem | hmem
    · exact hfg.proceeds answer hmem
    · exact hgh.proceeds answer hmem

/-- What a fulfilled drain takes from the ring is one slot, what is pushed comes on top. -/
theorem Fulfilled.len_eq (hfg : Fulfilled f g given) :
    given.length + g.ring.len + f.stats.pushed = f.ring.len + g.stats.pushed := by
  obtain ⟨pushed, hflow⟩ := hfg.flow
  have hlen := hflow.length_eq_add
  have hpushed := hflow.pushed_eq
  rw [List.length_map] at hlen
  omega

/-- The counters tell of nothing but the pushes and the slots drained. -/
theorem Fulfilled.stats_eq (hfg : Fulfilled f g given) : g.stats =
    ⟨g.stats.pushed, f.stats.drained + given.length, f.stats.underruns, f.stats.deferred⟩ := by
  obtain ⟨_, hflow⟩ := hfg.flow
  have hdrained := hflow.drained_eq
  rw [List.length_map] at hdrained
  rw [← hdrained, ← hfg.underruns_eq, ← hflow.deferred_eq]

/-- All answers were to go on, so that their slots tell them apart. -/
theorem Fulfilled.answers_eq (hfg : Fulfilled f g given) :
    given.map Prod.snd = (given.map (·.2.bytes)).map fun slot => ⟨.proceed, slot⟩ := by
  rw [List.map_map]
  refine List.map_congr_left fun answer hmem => ?_
  simp only [Function.comp_apply, ← hfg.proceeds answer hmem]

/-- Drains between two feeds are fulfilled if they ask for whole slots, and for no more of them than
there were at first. -/
structure Fulfils (f g : Feed) : Prop where
  flow : ∃ pushed popped, Flow f g pushed popped
  fulfilled : ∀ given, g.deliveries = f.deliveries ++ given →
    (∀ answer ∈ given, answer.2.bytes.length = f.ring.slotSize) → given.length ≤ f.ring.len →
    Fulfilled f g given

theorem Fulfils.trans (hfg : Fulfils f g) (hgh : Fulfils g h) : Fulfils f h := by
  obtain ⟨_, _, hflow⟩ := hfg.flow
  obtain ⟨_, _, hflow'⟩ := hgh.flow
  refine ⟨⟨_, _, hflow.trans hflow'⟩, fun given hgiven hwhole hle => ?_⟩
  obtain ⟨first, hfirst, _⟩ := hflow.answers
  obtain ⟨second, hsecond, _⟩ := hflow'.answers
  obtain rfl : first ++ second = given := by
    rw [hsecond, hfirst, List.append_assoc] at hgiven
    exact List.append_cancel_left hgiven
  rw [List.length_append] at hle
  have hserved := hfg.fulfilled first hfirst
    (fun answer hmem => hwhole answer (List.mem_append_left _ hmem)) (by omega)
  -- what the first part has left in the ring is enough for the second
  have hlen := hserved.len_eq
  have hpushed := hflow.pushed_eq
  refine hserved.trans (hgh.fulfilled second hsecond (fun answer hmem => ?_) (by omega))
  rw [hflow.slotSize_eq]
  exact hwhole answer (List.mem_append_right _ hmem)

theorem Fulfils.of_none (hfg : Fulfils f g) (h : g.deliveries = f.deliveries) : Fulfilled f g [] :=
  hfg.fulfilled [] (h.trans (List.append_nil _).symm) (fun _ hnil => absurd hnil List.not_mem_nil)
    (Nat.zero_le _)

/-- Where nothing is drained there is nothing to fulfil. -/
theorem fulfils_of_flow {pushed : List Slot} (hflow : Flow f g pushed [])
    (hdeliveries : g.deliveries = f.deliveries)
    (hunderruns : g.stats.underruns = f.stats.underruns) : Fulfils f g := by
  refine ⟨⟨_, _, hflow⟩, fun given hgiven _ _ => ?_⟩
  obtain rfl : given = [] := by
    rw [hdeliveries] at hgiven
    exact List.append_right_eq_self.mp hgiven.symm
  exact ⟨⟨_, hflow⟩, hgiven, fun _ hnil => absurd hnil List.not_mem_nil, hunderruns⟩

theorem fulfils_report (hf : f.ring.Sound) (notice : Notice) : Fulfils f (f.report notice) :=
  fulfils_of_flow (flow_report hf notice) (report_deliveries f notice) rfl

theorem fulfils_enqueue {slot : Slot} (hf : f.ring.Sound) (hroom : f.ring.hasRoom = true)
    (hslot : slot.length = f.ring.slotSize) : Fulfils f (f.enqueue slot) :=
  fulfils_of_flow (flow_enqueue hf hroom hslot)
    ((note_deliveries _ (.queued slot)).trans (List.append_nil _)) rfl

theorem fulfilled_dequeue (hf : f.ring.Sound) (hempty : f.ring.isEmpty = false)
    (drainer : Drainer) :
    Fulfilled f (f.dequeue drainer) [(drainer, ⟨.proceed, f.ring.slotAt f.ring.tail⟩)] := by
  refine ⟨⟨[], flow_dequeue hf hempty drainer⟩, note_deliveries _ _, ?_, rfl⟩
  intro answer hmem
  rw [List.mem_singleton.mp hmem]

theorem fulfils_drain (hf : f.ring.Sound) {drainer : Drainer} {dest : List Int8}
    {delivery : Delivery} (he : drain drainer dest f = .ok delivery g) : Fulfils f g := by
  obtain ⟨_, _, popped, heFlow, hflow, _⟩ := drain_flow hf drainer dest
  obtain ⟨_, _, heNoted, hnoted, _⟩ := drain_noted hf drainer dest
  rw [he] at heFlow heNoted
  cases heFlow
  cases heNoted
  refine ⟨⟨_, _, hflow⟩, fun given hgiven hwhole hle => ?_⟩
  obtain rfl : given = [(drainer, delivery)] := by
    rw [hnoted] at hgiven
    exact (List.append_cancel_left hgiven).symm
  have hempty := SlotRing.isEmpty_of_pos hle
  have hsize : delivery.bytes.length = f.ring.slotSize :=
    hwhole (drainer, delivery) (List.mem_singleton_self _)
  rcases drain_cases hf drainer dest with ⟨_, hd⟩ | ⟨hs, _, hd⟩ | ⟨hs, _, hd⟩
  · rw [he] at hd
    cases hd
    exact fulfilled_dequeue hf hempty drainer
  · rw [he] at hd
    cases hd
    exact absurd ⟨List.length_replicate.symm.trans hsize, hempty⟩ hs
  · rw [he] at hd
    cases hd
    exact absurd ⟨List.length_replicate.symm.trans hsize, hempty⟩ hs

theorem Drained.fulfils (hd : Drained f g) (hf : f.ring.Sound) : Fulfils f g := by
  induction hd with
  | refl => exact fulfils_of_flow (.refl hf) rfl rfl
  | drain hd he ih => exact ih.trans (fulfils_drain (hd.sound hf) he)
  | report notice hd ih => exact ih.trans (fulfils_report (hd.sound hf) notice)

end Feed

/-! ## Calls that are drained meanwhile -/

namespace TransmitSink

variable {s t : TransmitSink E} {input : List Sample} {count : Nat}

/-- A drain for a whole slot is answered with the oldest one that is queued. -/
theorem drain_of_queued (hs : s.feed.ring.Sound) (hempty : s.feed.ring.isEmpty = false)
    (drainer : Drainer) {dest : List Int8} (hdest : dest.length = s.feed.ring.slotSize) :
    drain drainer dest s = .ok ⟨.proceed, s.feed.ring.slotAt s.feed.ring.tail⟩
      { s with feed := s.feed.dequeue drainer } := by
  rw [drain, Feed.drain_of_serves hs ⟨hdest, hempty⟩]

theorem Moved.fulfils (hm : Moved s t) (hs : s.Sound) : s.feed.Fulfils t.feed :=
  hm.drained.fulfils hs.ring

theorem Worked.fulfils (hw : Worked input s count t) (hs : s.Sound) : s.feed.Fulfils t.feed := by
  cases hw with
  | partly moved _ => exact moved.fulfils hs
  | @completing t u moved room long after =>
      have ht := (moved.sound hs).ring
      have hroom : u.feed.ring.hasRoom = true := after.drained.hasRoom ht room
      obtain ⟨_, hslot⟩ := scratch_of_complete hs moved long after
      have hafter : t.feed.Fulfils u.feed := after.drained.fulfils ht
      exact ((moved.fulfils hs).trans hafter).trans
        (Feed.fulfils_enqueue (after.drained.sound ht) hroom hslot)

end TransmitSink

namespace Call

variable [TransferEngine E] {p q : Progress E} {input rest : List Sample}

theorem Rounds.fulfils (hr : Rounds input p rest q) (hp : p.sink.Sound) :
    p.sink.feed.Fulfils q.sink.feed := by
  induction hr with
  | refl => exact (TransmitSink.Moved.refl p.sink).fulfils hp
  | step hr he ih =>
      have hq := hr.sound hp
      exact ih.trans (((work_ends _ hq).ok he).fulfils hq)

theorem workAll_fulfils (input : List Sample) (hp : p.sink.Sound) :
    Ends (workAll input) p (fun _ q => p.sink.feed.Fulfils q.sink.feed)
      (fun _ q => p.sink.feed.Fulfils q.sink.feed) := by
  refine (workAll_ends input hp).imp (fun _ _ hr => hr.fulfils hp) ?_
  rintro halt q ⟨rest, r, _, hr, hlast⟩
  have hs := hr.sound hp
  exact (hr.fulfils hp).trans (((work_ends rest hs).error hlast).moved.fulfils hs)

end Call

/-! ## Drains in a row -/

namespace Operation

variable [TransferEngine E] {s : TransmitSink E}

/-- Drains for whole slots, no more than are queued, come before the rest of a run. -/
theorem run_drains {drains : List (Drainer × List Int8)} (hs : s.Sound)
    (hwhole : ∀ drain ∈ drains, drain.2.length = s.feed.ring.slotSize)
    (hle : drains.length ≤ s.queued) (rest : List (Operation E)) :
    ∃ t given, TransmitSink.Moved s t ∧ s.feed.Fulfilled t.feed given ∧
      given.map Prod.fst = drains.map Prod.fst ∧
      run s (drains.map (fun drain => .drain drain.1 drain.2) ++ rest) =
        (given.map (fun answer => .drained answer.2) ++ (run t rest).1, (run t rest).2) := by
  induction drains generalizing s with
  | nil => exact ⟨s, [], .refl s, .refl hs.ring, rfl, rfl⟩
  | cons drain drains ih =>
      have hempty := SlotRing.isEmpty_of_pos (Nat.zero_lt_of_lt hle)
      have hdrain := TransmitSink.drain_of_queued hs.ring hempty drain.1
        (hwhole drain List.mem_cons_self)
      have hmoved := TransmitSink.moved_of_drain hdrain
      have hstep : (Operation.drain drain.1 drain.2).perform s =
          (.drained ⟨.proceed, s.feed.ring.slotAt s.feed.ring.tail⟩,
            { s with feed := s.feed.dequeue drain.1 }) := by
        simp only [perform, hdrain]
      obtain ⟨t, given, hm, hserved, hdrainers, hrun⟩ := ih (hmoved.sound hs)
        (fun other hmem => hwhole other (List.mem_cons_of_mem _ hmem)) (Nat.le_sub_one_of_lt hle)
      have hfirst := Feed.fulfilled_dequeue hs.ring hempty drain.1
      refine ⟨t, _, hmoved.trans hm, hfirst.trans hserved, ?_, ?_⟩
      · simp [hdrainers]
      · rw [List.map_cons, List.cons_append, run_of_returns (by rw [hstep]; rfl), hstep]
        simp only [hrun]
        rfl

end Operation

end IqTransmit
