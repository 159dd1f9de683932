import EditableMarkup.Proofs.Reading.Starts

/-!
# Readings that are kept

Where a text can be read in several ways, a reader may still keep one certain
reading for an end: no reading is cheaper, and none of those that were tried
before comes there.  Of one part after another, no nearer end of the first part
may lead to the same end.
-/

namespace EditableMarkup.Grammar.Reader

open Reading

variable {α β : Type}

/-- A reader keeps a reading for an end, with a value of some kind: it stands behind shorter readings
only, and none is cheaper. -/
def Keeps (reader : Reader α) (place : Place) (used cost : Nat) (kind : α → Prop) : Prop :=
  ∃ reading, Leads (reader place).readings reading ∧ reading.used = used ∧ reading.cost = cost ∧
    kind reading.value ∧ ∀ other, Reads reader place other → cost ≤ other.cost

theorem leads_followedBy {readings : List (Reading β)} {reading : Reading β}
    (h : Leads readings reading) (first : Reading α) :
    Leads (readings.map first.followedBy) (first.followedBy reading) :=
  h.map fun _ _ hless => Nat.add_lt_add_left hless first.used

section Keeps

variable {reader : Reader α} {place : Place} {used used' cost : Nat} {kind : α → Prop}
  {kind' : β → Prop}

/-- What settles without cost is kept. -/
theorem Offers.keeps (settles : Settles True reader place used kind) :
    Keeps reader place used 0 kind := by
  obtain ⟨_, hreading, _⟩ := settles.reads
  cases hreadings : (reader place).readings with
  | nil =>
      rw [Reads, hreadings] at hreading
      cases hreading
  | cons first rest =>
      have hfirst : Reads reader place first := by simp [Reads, hreadings]
      obtain ⟨hused, hcost, hkind⟩ := (settles.only first hfirst).resolve_right id
      exact ⟨first, hreadings ▸ leads_cons first rest, hused, hcost trivial, hkind,
        fun _ _ => Nat.zero_le _⟩

/-- What settles is kept at some cost. -/
theorem Offers.exists_keeps {free : Prop} (settles : Settles free reader place used kind)
    (ascends : AscendsAt reader place) : ∃ cost, Keeps reader place used cost kind := by
  obtain ⟨reading, hreadings, hused, _, hkind⟩ := settles.readings_eq ascends
  refine ⟨reading.cost, reading, hreadings ▸ leads_cons reading [], hused, rfl, hkind, ?_⟩
  intro other hother
  rw [Reads, hreadings, List.mem_singleton] at hother
  rw [hother]

theorem Keeps.imp {kind' : α → Prop} (keeps : Keeps reader place used cost kind)
    (h : ∀ value, kind value → kind' value) : Keeps reader place used cost kind' := by
  obtain ⟨reading, leads, hused, hcost, hkind, hleast⟩ := keeps
  exact ⟨reading, leads, hused, hcost, h _ hkind, hleast⟩

/-- The same readings from another place. -/
theorem Keeps.transfer (keeps : Keeps reader place used cost kind) {reader' : Reader α}
    {place' : Place} (h : reader' place' = reader place) :
    Keeps reader' place' used cost kind := by
  obtain ⟨reading, leads, hused, hcost, hkind, hleast⟩ := keeps
  refine ⟨reading, by rwa [h], hused, hcost, hkind, fun other hother => hleast other ?_⟩
  rwa [Reads, ← h]

/-! ## Slices and costs -/

theorem Keeps.sliced {reader : Reader (Slice → α)} {kind : α → Prop}
    (keeps : Keeps reader place used cost fun make => ∀ slice, kind (make slice)) :
    Keeps (Reader.sliced reader) place used cost kind := by
  obtain ⟨reading, leads, hused, hcost, hkind, hleast⟩ := keeps
  refine ⟨_, leads.map (fun _ _ => id), hused, hcost, hkind _, fun other hother => ?_⟩
  obtain ⟨before, hbefore, rfl⟩ := reads_sliced.mp hother
  exact hleast before hbefore

theorem Keeps.counted (keeps : Keeps reader place used cost kind) :
    Keeps (Reader.counted reader) place used (cost + 1) kind := by
  obtain ⟨reading, leads, hused, hcost, hkind, hleast⟩ := keeps
  refine ⟨_, leads.map (fun _ _ => id), hused, congrArg (· + 1) hcost, hkind, fun other hother => ?_⟩
  obtain ⟨before, hbefore, rfl⟩ := reads_counted.mp hother
  exact Nat.succ_le_succ (hleast before hbefore)

/-! ## One after the other, one of several -/

/-- Of the first parts no nearer one leads to the end. -/
theorem Keeps.bind {second : α → Reader β} (keeps : Keeps reader place used cost kind)
    (next : ∀ value, kind value → Keeps (second value) (place.advance used) used' 0 kind')
    (hnearer : ∀ nearer, Reads reader place nearer → nearer.used < used →
      ∀ other, Reads (second nearer.value) (place.advance nearer.used) other →
        nearer.used + other.used ≠ used + used') :
    Keeps (reader >>= second) place (used + used') cost kind' := by
  obtain ⟨before, leads, rfl, rfl, hkind, hleast⟩ := keeps
  obtain ⟨after, hafter, rfl, hcost', hkind', _⟩ := next before.value hkind
  have hcost : ∀ other, Reads (reader >>= second) place other → before.cost ≤ other.cost := by
    intro other hother
    obtain ⟨first, hfirst, rest, _, rfl⟩ := exists_of_reads_bind hother
    exact Nat.le_trans (hleast first hfirst) (Nat.le_add_right ..)
  obtain ⟨front, rear, hsplit, hfront⟩ := leads
  have hmem : before.followedBy after ∈ ((reader >>= second) place).readings := by
    rw [bind_eq_mergeAll]
    refine Outcome.mem_mergeAll hsplit (leads_followedBy hafter before) (by simp) ?_ ?_
    · intro nearer hnearerFront other hother
      obtain ⟨another, hanother, rfl⟩ := List.mem_map.mp hother
      exact hnearer nearer (by rw [Reads, hsplit]; simp [hnearerFront])
        (hfront nearer hnearerFront) another hanother
    · intro later hlater other hother _
      obtain ⟨another, _, rfl⟩ := List.mem_map.mp hother
      have hleastLater := hleast later (by rw [Reads, hsplit]; exact List.mem_append_right _ hlater)
      simp only [followedBy_cost]
      omega
  refine ⟨_, ascendsAt_bind.leads hmem, rfl, ?_, hkind', hcost⟩
  rw [followedBy_cost, hcost', Nat.add_zero]

/-- Behind a reader without a choice, what the second reader keeps is kept. -/
theorem Offers.bindKeeps {second : α → Reader β} (settles : Settles True reader place used kind)
    (next : ∀ value, kind value → Keeps (second value) (place.advance used) used' 0 kind') :
    Keeps (reader >>= second) place (used + used') 0 kind' := by
  refine settles.keeps.bind next fun nearer hnearer hless => ?_
  obtain ⟨hused, _⟩ := (settles.only nearer hnearer).resolve_right id
  exact absurd hused (Nat.ne_of_lt hless)

theorem Keeps.returning {f : α → β} (keeps : Keeps reader place used cost kind)
    (h : ∀ value, kind value → kind' (f value)) :
    Keeps (reader >>= fun value => Pure.pure (f value)) place used cost kind' := by
  have hbind : Keeps (reader >>= fun value => Pure.pure (f value)) place (used + 0) cost kind' := by
    refine keeps.bind (fun value hvalue => (Offers.pure (h value hvalue)).keeps) ?_
    intro nearer _ hless other hother
    rw [reads_pure.mp hother]
    exact Nat.ne_of_lt hless
  exact hbind

theorem Keeps.map {f : α → β} (keeps : Keeps reader place used cost kind)
    (h : ∀ value, kind value → kind' (f value)) :
    Keeps (f <$> reader) place used cost kind' :=
  keeps.returning h

/-- The first one of several readers that comes to an end decides what is kept, if none is
cheaper. -/
theorem Keeps.oneOf {readers before after : List (Reader α)}
    (keeps : Keeps reader place used cost kind) (hreaders : readers = before ++ reader :: after)
    (hbefore : ∀ earlier ∈ before, ∀ other, Reads earlier place other →
      other.used ≠ used ∧ cost ≤ other.cost)
    (hafter : ∀ later ∈ after, ∀ other, Reads later place other → cost ≤ other.cost) :
    Keeps (Reader.oneOf readers) place used cost kind := by
  obtain ⟨reading, leads, rfl, rfl, hkind, hleast⟩ := keeps
  have hlater : ∀ later ∈ reader :: after, ∀ other, Reads later place other →
      reading.cost ≤ other.cost := by
    intro later hlater other hother
    rcases List.mem_cons.mp hlater with rfl | hlater
    · exact hleast other hother
    · exact hafter later hlater other hother
  have hmem : reading ∈ (Reader.oneOf readers place).readings := by
    rw [oneOf_eq_mergeAll]
    exact Outcome.mem_mergeAll hreaders leads (by simp [Outcome.none])
      (fun earlier hearlier other hother => (hbefore earlier hearlier other hother).1)
      fun later hlater' other hother _ => hlater later hlater' other hother
  refine ⟨reading, ascendsAt_oneOf.leads hmem, rfl, rfl, hkind, fun other hother => ?_⟩
  obtain ⟨found, hfound, hreads⟩ := exists_of_reads_oneOf hother
  rw [hreaders] at hfound
  rcases List.mem_append.mp hfound with hfound | hfound
  · exact (hbefore found hfound other hreads).2
  · exact hlater found hfound other hreads

/-- What the first one of several readers keeps without cost is kept. -/
theorem Keeps.first {readers : List (Reader α)} (keeps : Keeps reader place used 0 kind) :
    Keeps (Reader.oneOf (reader :: readers)) place used 0 kind :=
  @Keeps.oneOf _ reader place used 0 kind _ [] readers keeps rfl (by simp)
    fun _ _ _ _ => Nat.zero_le _

/-- What one of several readers keeps is kept, if all others fail. -/
theorem Keeps.choose {readers : List (Reader α)} (keeps : Keeps reader place used cost kind)
    (hreader : reader ∈ readers)
    (hothers : ∀ other ∈ readers, other = reader ∨ Fails other place) :
    Keeps (Reader.oneOf readers) place used cost kind := by
  obtain ⟨before, after, hsplit, hbefore⟩ := List.eq_append_cons_of_mem hreader
  refine keeps.oneOf hsplit (fun earlier hearlier other hother => ?_)
    fun later hlater other hother => ?_
  · rcases hothers earlier (by simp [hsplit, hearlier]) with rfl | hfails
    · exact absurd hearlier hbefore
    · exact absurd hother (hfails other)
  · rcases hothers later (by simp [hsplit, hlater]) with rfl | hfails
    · obtain ⟨_, _, _, _, _, hleast⟩ := keeps
      exact hleast other hother
    · exact absurd hother (hfails other)

theorem Keeps.maybeMore {more : α → Reader α} (keeps : Keeps reader place used 0 kind) :
    Keeps (Reader.maybeMore reader more) place used 0 kind :=
  @Keeps.first _ (fun _ => reader place) place used kind _ keeps

/-! ## Repetition -/

theorem Keeps.iterate {step : α → Reader α} (keeps : Keeps reader place used cost kind) :
    Keeps (Reader.iterate reader step) place used cost kind := by
  obtain ⟨reading, leads, hused, rfl, hkind, hleast⟩ := keeps
  have hstep : ∀ before after : Reading α, reading.cost ≤ before.cost →
      Reads (step before.value) (place.advance before.used) after →
      reading.cost ≤ (before.followedBy after).cost := by
    intro before after hbefore _
    exact Nat.le_trans hbefore (Nat.le_add_right ..)
  refine ⟨reading, ?_, hused, rfl, hkind, fun other hother => ?_⟩
  · exact leads_grow (fun other => reading.cost ≤ other.cost) hstep _ hleast leads
      fun _ hother _ => hother
  · exact iterate_induction (fun other => reading.cost ≤ other.cost) hleast hstep hother

/-- The reading of a value that is passed on. -/
theorem exists_of_reads_returning {f : α → β} {after : Reading β}
    (h : Reads (reader >>= fun value => Pure.pure (f value)) place after) :
    ∃ before, Reads reader place before ∧ after.used = before.used ∧ after.cost = before.cost ∧
      after.value = f before.value := by
  obtain ⟨before, hbefore, other, hother, rfl⟩ := exists_of_reads_bind h
  rw [reads_pure.mp hother]
  exact ⟨before, hbefore, rfl, rfl, rfl⟩

/-- What is kept of one construct is kept by a repetition that takes it once, up to the cost of
taking none. -/
theorem Keeps.exists_leads_many (keeps : Keeps reader place used cost kind) (hpositive : 0 < used) :
    ∃ found, Leads (Reader.many reader place).readings found ∧ found.used = used ∧
      found.cost = cost ∧ ∃ value, found.value = [value] ∧ kind value := by
  let step : List α → Reader (List α) := fun values => do return values ++ [← reader]
  let start : Reading (List α) := ⟨[], 0, 0, 0⟩
  have hstart : Keeps (step []) place used cost fun values => ∃ value, values = [value] ∧ kind value :=
    keeps.returning fun value hvalue => ⟨value, rfl, hvalue⟩
  obtain ⟨after, leads, hused, hcost, hvalue, hleast⟩ := hstart
  have hfollowed : Leads (nextOf step place start) (start.followedBy after) :=
    leads_followedBy leads start
  have hused' : (start.followedBy after).used = used := (Nat.zero_add _).trans hused
  have hcost' : (start.followedBy after).cost = cost := (Nat.zero_add _).trans hcost
  -- Nothing costs less than the first construct, apart from taking none.
  let property : Reading (List α) → Prop := fun other => other.used = 0 ∨ cost ≤ other.cost
  have hstep : ∀ before other : Reading (List α), property before →
      Reads (step before.value) (place.advance before.used) other →
      property (before.followedBy other) := by
    intro before other hbefore hother
    refine Or.inr ?_
    rw [followedBy_cost]
    rcases hbefore with hzero | hless
    · rw [hzero, Place.advance_zero] at hother
      obtain ⟨first, hfirst, _, hfirstCost, _⟩ := exists_of_reads_returning hother
      obtain ⟨_, _, _, _, _, hleastFirst⟩ := keeps
      have := hleastFirst first hfirst
      omega
    · omega
  have hnext : ∀ other ∈ nextOf step place start, property other := by
    intro other hother
    obtain ⟨another, hanother, rfl⟩ := mem_nextOf.mp hother
    exact hstep start another (Or.inl rfl) hanother
  have hagenda : Leads (insertAll (nextOf step place start) []) (start.followedBy after) := by
    refine (Ascending.insertAll List.Pairwise.nil _).leads
      (hfollowed.mem_insertAll (by simp) fun other hother hsame => ?_)
    rcases hnext other hother with hzero | hless
    · omega
    · omega
  have hgrown : Leads (grow step place place.length
      (insertAll (nextOf step place start) [])).readings (start.followedBy after) := by
    refine leads_grow property hstep _ (fun other hother => ?_) hagenda fun other hother hsame => ?_
    · rcases mem_or_mem_of_mem_insertAll hother with hother | hnone
      · exact hnext other hother
      · cases hnone
    · rcases hother with hzero | hless
      · omega
      · omega
  exact ⟨start.followedBy after, hgrown.cons (by rw [hused']; exact hpositive), hused', hcost', hvalue⟩

/-- What is kept without cost is kept by a repetition that takes it once. -/
theorem Keeps.many (keeps : Keeps reader place used 0 kind) (hpositive : 0 < used) :
    Keeps (Reader.many reader) place used 0 fun values => ∃ value, values = [value] ∧ kind value := by
  obtain ⟨found, leads, hused, hcost, hvalue⟩ := keeps.exists_leads_many hpositive
  exact ⟨found, leads, hused, hcost, hvalue, fun _ _ => Nat.zero_le _⟩

end Keeps

end EditableMarkup.Grammar.Reader
