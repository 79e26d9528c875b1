import SlotRotation.Proofs.Execution
import SlotRotation.Proofs.Fits

/-! Two runs side by side, one with a buffer and one with slots in its place. They agree on everything but the
buffer and the values that came with the slots. While the loop of the slots is in an iteration, the buffer stands
for the slot that the iteration selected, and from the first access on both hold the same. -/

namespace SlotRotation

/-- A value that only one of the runs knows, or the buffer itself. -/
def Hidden (size : Nat) (buffer v : ValueId) : Prop := v = buffer ∨ size ≤ v.index

def SlotSet.rename (set : SlotSet) (buffer v : ValueId) : ValueId := if v = buffer then set.selected else v

structure SlotSet.Unseen (set : SlotSet) (size : Nat) (buffer : ValueId) : Prop where
  slots : ∀ slot ∈ set.slots, Hidden size buffer slot.value
  selected : Hidden size buffer set.selected

/-- The instance that stands for another one while a slot is selected. -/
def standIn (focus : Option (Instance × Instance)) (place : Instance) : Instance :=
  match focus with
  | some (old, new) => if place = old then new else place
  | none => place

/-- The run `σ` with the buffer and the run `τ` with the slots. In an iteration, `focus` holds the instance of the
buffer and the selected one of the slots, which have the same content if the buffer is `settled`. -/
structure Related (size : Nat) (buffer : ValueId) (set : SlotSet) (focus : Option (Instance × Instance))
    (settled : Prop) (σ τ : Machine) : Prop where
  env : ∀ v, ¬Hidden size buffer v → σ.env v = τ.env v
  tidy : ∀ v place, σ.env v = some (.buffer place) → place.value = v
  contents : ∀ place : Instance, ¬Hidden size buffer place.value → σ.contents place = τ.contents place
  made : ∀ v, ¬Hidden size buffer v → σ.made v = τ.made v
  loads : σ.loads = τ.loads
  slots : ∀ old, σ.env buffer = some (.buffer old) → ∀ slot ∈ set.slots, ∃ new : Instance,
    τ.env slot.value = some (.buffer new) ∧ new.value = slot.value ∧
      (set.slots.length = 1 → σ.contents old = τ.contents new)
  focused : ∀ p ∈ focus, σ.env buffer = some (.buffer p.1) ∧ τ.env set.selected = some (.buffer p.2) ∧
    (∃ slot ∈ set.slots, τ.env slot.value = some (.buffer p.2) ∧ p.2.value = slot.value) ∧
      (settled → σ.contents p.1 = τ.contents p.2)

theorem Machine.word?_eq_some_iff {m : Machine} {v : ValueId} {n : Int64} :
    m.word? v = some n ↔ m.env v = some (.word n) := by
  unfold word?
  split <;> simp_all

theorem Machine.place?_eq_some_iff {m : Machine} {v : ValueId} {place : Instance} :
    m.place? v = some place ↔ m.env v = some (.buffer place) := by
  unfold place?
  split <;> simp_all

theorem mapM_map {α β : Type} {f : ValueId → Option α} {g : ValueId → Option β} {r : ValueId → ValueId} {e : α → β}
    {vs : List ValueId} {xs : List α} (h : vs.mapM f = some xs)
    (hfg : ∀ v ∈ vs, ∀ x, f v = some x → g (r v) = some (e x)) : (vs.map r).mapM g = some (xs.map e) := by
  induction vs generalizing xs with
  | nil =>
    cases h
    rfl
  | cons v vs ih =>
    simp only [List.mapM_cons, Option.bind_eq_bind, Option.bind_eq_some_iff, Option.pure_def, Option.some.injEq] at h
    obtain ⟨x, hx, ys, hys, rfl⟩ := h
    have hrest := ih hys fun w hw => hfg w (List.mem_cons_of_mem _ hw)
    simp [hfg v List.mem_cons_self x hx, hrest]

theorem exists_of_mapM {α : Type} {f : ValueId → Option α} {vs : List ValueId} {xs : List α}
    (h : vs.mapM f = some xs) : ∀ v ∈ vs, ∃ x, f v = some x := by
  induction vs generalizing xs with
  | nil => simp
  | cons v vs ih =>
    simp only [List.mapM_cons, Option.bind_eq_bind, Option.bind_eq_some_iff] at h
    obtain ⟨x, hx, ys, hys, -⟩ := h
    intro w hw
    rcases List.mem_cons.mp hw with rfl | hw
    · exact ⟨x, hx⟩
    · exact ih hys w hw

theorem mapIdx_const {α β : Type} (f : α → β) (xs : List α) : (xs.mapIdx fun _ => f) = xs.map f := by
  apply List.ext_getElem?
  simp

namespace Related

variable {size : Nat} {buffer : ValueId} {set : SlotSet} {focus : Option (Instance × Instance)}
  {settled settled' : Prop} {σ τ : Machine} {v : ValueId}

theorem imp (R : Related size buffer set focus settled σ τ) (h : settled' → settled) :
    Related size buffer set focus settled' σ τ where
  __ := R
  focused p hp := by
    obtain ⟨hold, hnew, hslot, hsame⟩ := R.focused p hp
    exact ⟨hold, hnew, hslot, fun hs => hsame (h hs)⟩

theorem unfocus (R : Related size buffer set focus settled σ τ) (settled' : Prop) :
    Related size buffer set none settled' σ τ where
  __ := R
  focused _ hp := nomatch hp

theorem visit_left (R : Related size buffer set focus settled σ τ) (x : Visit) :
    Related size buffer set focus settled (σ.visit x) τ where
  __ := R

theorem visit (R : Related size buffer set focus settled σ τ) (x y : Visit) :
    Related size buffer set focus settled (σ.visit x) (τ.visit y) where
  __ := R

section

variable (R : Related size buffer set focus settled σ τ) (hv : v.index < size) (hfocus : v = buffer → focus.isSome)
include R hv hfocus

omit hv in
theorem ne_of_word {n : Int64} (h : σ.word? v = some n) : v ≠ buffer := by
  intro hb
  obtain ⟨p, hp⟩ := Option.isSome_iff_exists.mp (hfocus hb)
  rw [Machine.word?_eq_some_iff, hb, (R.focused p hp).1] at h
  cases h

theorem word {n : Int64} (h : σ.word? v = some n) : τ.word? (set.rename buffer v) = some n := by
  have hb := R.ne_of_word hfocus h
  rw [Machine.word?_eq_some_iff] at h ⊢
  rw [SlotSet.rename, if_neg hb, ← R.env v (not_or.mpr ⟨hb, not_le.mpr hv⟩), h]

theorem place_cases {place : Instance} (h : σ.place? v = some place) :
    (∃ p ∈ focus, v = buffer ∧ place = p.1 ∧ standIn focus place = p.2) ∨
      (¬Hidden size buffer v ∧ place.value = v ∧ standIn focus place = place) := by
  rw [Machine.place?_eq_some_iff] at h
  have htidy := R.tidy v place h
  by_cases hb : v = buffer
  · obtain ⟨p, rfl⟩ := Option.isSome_iff_exists.mp (hfocus hb)
    have hold := (R.focused p rfl).1
    rw [hb, hold] at h
    obtain rfl : p.1 = place := by injection h with h; injection h
    exact Or.inl ⟨p, rfl, hb, rfl, if_pos rfl⟩
  · refine Or.inr ⟨not_or.mpr ⟨hb, not_le.mpr hv⟩, htidy, ?_⟩
    unfold standIn
    split
    · rename_i old new
      refine if_neg fun heq => hb ?_
      rw [← htidy, heq]
      exact R.tidy buffer old (R.focused _ rfl).1
    · rfl

theorem place {place : Instance} (h : σ.place? v = some place) :
    τ.place? (set.rename buffer v) = some (standIn focus place) := by
  rcases R.place_cases hv hfocus h with ⟨p, hp, hb, hplace, hstand⟩ | ⟨hhidden, -, hstand⟩
  · rw [Machine.place?_eq_some_iff, SlotSet.rename, if_pos hb, (R.focused p hp).2.1, hstand]
  · rw [Machine.place?_eq_some_iff] at h ⊢
    rw [SlotSet.rename, if_neg fun hb => hhidden (Or.inl hb), ← R.env v hhidden, h, hstand]

theorem content {place : Instance} (h : σ.place? v = some place) (hsettled : v = buffer → settled) :
    σ.contents place = τ.contents (standIn focus place) := by
  rcases R.place_cases hv hfocus h with ⟨p, hp, hb, rfl, hstand⟩ | ⟨hhidden, hvalue, hstand⟩
  · rw [hstand]
    exact (R.focused p hp).2.2.2 (hsettled hb)
  · rw [hstand]
    exact R.contents place (hvalue ▸ hhidden)

theorem read {reading : Reading} (h : σ.read? v = some reading) (hsettled : v = buffer → settled) :
    τ.read? (set.rename buffer v) = some reading := by
  obtain ⟨d, hd, hreading⟩ := Option.map_eq_some_iff.mp h
  cases d with
  | word n =>
    have hword := R.word hv hfocus (Machine.word?_eq_some_iff.mpr hd)
    rw [Machine.read?, Machine.word?_eq_some_iff.mp hword, Option.map_some, ← hreading]
  | buffer place =>
    have hplace := Machine.place?_eq_some_iff.mpr hd
    rw [Machine.read?, Machine.place?_eq_some_iff.mp (R.place hv hfocus hplace), Option.map_some, ← hreading]
    exact congrArg (some ∘ Reading.content) (R.content hv hfocus hplace hsettled).symm

end

section

variable (R : Related size buffer set focus settled σ τ) (hset : set.Unseen size buffer)
include R hset

theorem write (hv : v.index < size) (hfocus : v = buffer → focus.isSome) {place : Instance}
    (h : σ.place? v = some place) (content : Content) :
    Related size buffer set focus (settled ∨ v = buffer) (σ.write place content)
      (τ.write (standIn focus place) content) := by
  rcases R.place_cases hv hfocus h with ⟨p, hp, hb, rfl, hstand⟩ | ⟨hhidden, hvalue, hstand⟩
  · -- the buffer and the selected slot are written
    obtain ⟨hold, hnew, ⟨slot, hslot, henv, hvalue⟩, hsame⟩ := R.focused p hp
    have hown : p.1.value = buffer := R.tidy buffer p.1 hold
    rw [hstand]
    refine ⟨R.env, R.tidy, fun place hplace => ?_, R.made, R.loads, fun old hold' s hs => ?_, fun q hq => ?_⟩
    · change Function.update σ.contents p.1 content place = Function.update τ.contents p.2 content place
      rw [Function.update_of_ne, Function.update_of_ne, R.contents place hplace]
      · rintro rfl
        exact hplace (hvalue ▸ hset.slots slot hslot)
      · rintro rfl
        exact hplace (Or.inl hown)
    · obtain ⟨new, henv', hvalue', -⟩ := R.slots old hold' s hs
      refine ⟨new, henv', hvalue', fun hone => ?_⟩
      obtain rfl : old = p.1 := by
        have heq := hold'.symm.trans hold
        injection heq with heq
        injection heq
      have hsame : s = slot := by
        obtain ⟨only, honly⟩ := List.length_eq_one_iff.mp hone
        rw [honly, List.mem_singleton] at hs hslot
        rw [hs, hslot]
      rw [hsame, henv] at henv'
      obtain rfl : p.2 = new := by injection henv' with heq; injection heq
      change Function.update σ.contents p.1 content p.1 = Function.update τ.contents p.2 content p.2
      rw [Function.update_self, Function.update_self]
    · obtain rfl : p = q := Option.some.inj (hp.symm.trans hq)
      refine ⟨hold, hnew, ⟨slot, hslot, henv, hvalue⟩, fun _ => ?_⟩
      change Function.update σ.contents p.1 content p.1 = Function.update τ.contents p.2 content p.2
      rw [Function.update_self, Function.update_self]
  · -- both runs write the same buffer, which is neither the buffer in question nor a slot
    have hother : ∀ {q : Instance}, Hidden size buffer q.value → q ≠ place := by
      rintro q hq rfl
      exact hhidden (hvalue ▸ hq)
    rw [hstand]
    refine ⟨R.env, R.tidy, fun q hq => ?_, R.made, R.loads, fun old hold s hs => ?_, fun p hp => ?_⟩
    · change Function.update σ.contents place content q = Function.update τ.contents place content q
      by_cases heq : q = place
      · rw [heq, Function.update_self, Function.update_self]
      · rw [Function.update_of_ne heq, Function.update_of_ne heq, R.contents q hq]
    · obtain ⟨new, henv, hnew, hsame⟩ := R.slots old hold s hs
      refine ⟨new, henv, hnew, fun hone => ?_⟩
      change Function.update σ.contents place content old = Function.update τ.contents place content new
      rw [Function.update_of_ne (hother (Or.inl (R.tidy buffer old hold))),
        Function.update_of_ne (hother (hnew ▸ hset.slots s hs)), hsame hone]
    · obtain ⟨hold, hnew, ⟨slot, hslot, henv, hvalue'⟩, hsame⟩ := R.focused p hp
      refine ⟨hold, hnew, ⟨slot, hslot, henv, hvalue'⟩, fun hs => ?_⟩
      change Function.update σ.contents place content p.1 = Function.update τ.contents place content p.2
      rw [Function.update_of_ne (hother (Or.inl (R.tidy buffer p.1 hold))),
        Function.update_of_ne (hother (hvalue' ▸ hset.slots slot hslot))]
      exact hsame (hs.resolve_right fun hb => hhidden (Or.inl hb))

theorem define (hv : ¬Hidden size buffer v) (d : Datum) (hd : ∀ place, d = .buffer place → place.value = v) :
    Related size buffer set focus settled (σ.define v d) (τ.define v d) := by
  have hold : ∀ {w}, Hidden size buffer w → ∀ m : Machine, (m.define v d).env w = m.env w := fun hw m =>
    Function.update_of_ne (by rintro rfl; exact hv hw) _ _
  have hbuffer : Hidden size buffer buffer := Or.inl rfl
  refine ⟨fun w hw => ?_, fun w place h => ?_, R.contents, R.made, R.loads, fun old hold' s hs => ?_, fun p hp => ?_⟩
  · change Function.update σ.env v (some d) w = Function.update τ.env v (some d) w
    by_cases heq : w = v
    · rw [heq, Function.update_self, Function.update_self]
    · rw [Function.update_of_ne heq, Function.update_of_ne heq, R.env w hw]
  · change Function.update σ.env v (some d) w = _ at h
    by_cases heq : w = v
    · rw [heq, Function.update_self, Option.some.injEq] at h
      rw [heq]
      exact hd place h
    · rw [Function.update_of_ne heq] at h
      exact R.tidy w place h
  · rw [hold hbuffer] at hold'
    rw [hold (hset.slots s hs)]
    exact R.slots old hold' s hs
  · obtain ⟨hold', hnew, ⟨slot, hslot, henv, hvalue⟩, hsame⟩ := R.focused p hp
    refine ⟨?_, ?_, ⟨slot, hslot, ?_, hvalue⟩, hsame⟩
    · rw [hold hbuffer, hold']
    · rw [hold hset.selected, hnew]
    · rw [hold (hset.slots slot hslot), henv]

theorem load (hv : ¬Hidden size buffer v) (n : Int64) :
    Related size buffer set focus settled (σ.load v n) (τ.load v n) where
  __ := R.define hset hv (.word n) fun _ h => nomatch h
  loads := by
    change σ.loads ++ [n] = τ.loads ++ [n]
    rw [R.loads]

theorem make (hv : ¬Hidden size buffer v) (content : Content) :
    Related size buffer set focus settled (σ.make v content) (τ.make v content) := by
  have hdefine := R.define hset hv (.buffer ⟨v, σ.made v⟩) fun _ h => by cases h; rfl
  have hplace : (σ.define v (.buffer ⟨v, σ.made v⟩)).place? v = some ⟨v, σ.made v⟩ :=
    Machine.place?_eq_some_iff.mpr (Function.update_self ..)
  have hb : v ≠ buffer := fun heq => hv (Or.inl heq)
  have hwrite := hdefine.write hset (not_le.mp fun hle => hv (Or.inr hle)) (fun heq => absurd heq hb) hplace content
  have hstand : standIn focus ⟨v, σ.made v⟩ = ⟨v, τ.made v⟩ := by
    rcases hdefine.place_cases (not_le.mp fun hle => hv (Or.inr hle)) (fun heq => absurd heq hb) hplace with
      ⟨_, _, heq, _⟩ | ⟨_, _, hstand⟩
    · exact absurd heq hb
    · rw [hstand, R.made v hv]
  rw [hstand, R.made v hv] at hwrite
  unfold Machine.make
  rw [R.made v hv]
  refine { hwrite.imp Or.inl with made := fun w hw => ?_ }
  change Function.update σ.made v (τ.made v + 1) w = Function.update τ.made v (τ.made v + 1) w
  by_cases heq : w = v
  · rw [heq, Function.update_self, Function.update_self]
  · rw [Function.update_of_ne heq, Function.update_of_ne heq, R.made w hw]

theorem writeAll {vs : List ValueId} {places : List Instance} (hvs : ∀ v ∈ vs, v.index < size)
    (hfocus : buffer ∈ vs → focus.isSome) (h : vs.mapM σ.place? = some places) (f : Nat → Content) (j : Nat) :
    Related size buffer set focus (settled ∨ buffer ∈ vs)
      (σ.writeAll (places.mapIdx fun i place => (place, f (i + j))))
      (τ.writeAll ((places.map (standIn focus)).mapIdx fun i place => (place, f (i + j)))) := by
  induction vs generalizing places σ τ settled j with
  | nil =>
    cases h
    exact R.imp fun h => h.resolve_right List.not_mem_nil
  | cons v vs ih =>
    simp only [List.mapM_cons, Option.bind_eq_bind, Option.bind_eq_some_iff, Option.pure_def, Option.some.injEq] at h
    obtain ⟨place, hplace, rest, hrest, rfl⟩ := h
    have hone := R.write hset (hvs v List.mem_cons_self) (fun hb => hfocus (hb ▸ List.mem_cons_self)) hplace (f j)
    have hall := ih hone (fun w hw => hvs w (List.mem_cons_of_mem _ hw))
      (fun hb => hfocus (List.mem_cons_of_mem _ hb)) hrest (j + 1)
    have hshift : ∀ i, i + (j + 1) = i + 1 + j := fun i => by omega
    simp only [hshift] at hall
    simp only [List.mapIdx_cons, List.map_cons, Nat.zero_add, Machine.writeAll]
    refine hall.imp fun h => ?_
    rw [List.mem_cons] at h
    exact or_assoc.mpr (h.imp_right (Or.imp_left Eq.symm))

end

/-- An op that is no loop, done by one run and under the other names by the other. An access to the buffer that is
not settled has to overwrite it without reading it. -/
theorem step (R : Related size buffer set focus settled σ τ) (hset : set.Unseen size buffer) {sem : Semantics}
    {i : Instr} {σ' : Machine} (hselect : ∀ result slots index, i ≠ .selectSlot result slots index)
    (hdealloc : ∀ v, i ≠ .dealloc v) (hresult : ∀ v, i.result? = some v → ¬Hidden size buffer v)
    (hoperands : ∀ v ∈ i.operands, v.index < size) (hfocus : buffer ∈ i.operands → focus.isSome)
    (hfirst : buffer ∈ i.operands → settled ∨ (∃ v w, i = .fill v w) ∨ ∃ v w, i = .copy v w ∧ v ≠ buffer)
    (h : sem.step σ i = some σ') :
    ∃ τ', sem.step τ (i.mapOperands fun _ => set.rename buffer) = some τ' ∧
      Related size buffer set focus (settled ∨ buffer ∈ i.operands) σ' τ' := by
  have hsame : ∀ {ρ ρ' : Machine}, buffer ∉ i.operands → Related size buffer set focus settled ρ ρ' →
      Related size buffer set focus (settled ∨ buffer ∈ i.operands) ρ ρ' := fun hb R =>
    R.imp fun h => h.resolve_right hb
  have hreads : ∀ v ∈ i.operands, v.index < size ∧ (v = buffer → focus.isSome) := fun v hv =>
    ⟨hoperands v hv, fun hb => hfocus (hb ▸ hv)⟩
  have hwords : ∀ {vs : List ValueId} {ns : List Int64}, (∀ v ∈ vs, v ∈ i.operands) → vs.mapM σ.word? = some ns →
      buffer ∉ vs ∧ (vs.map (set.rename buffer)).mapM τ.word? = some ns := by
    intro vs ns hvs hns
    refine ⟨fun hb => ?_, ?_⟩
    · obtain ⟨n, hn⟩ := exists_of_mapM hns buffer hb
      exact R.ne_of_word (hreads buffer (hvs buffer hb)).2 hn rfl
    · have hmap := mapM_map (e := id) hns fun v hv n hn => R.word (hreads v (hvs v hv)).1 (hreads v (hvs v hv)).2 hn
      rwa [List.map_id] at hmap
  -- every access but `fill` and `copy` depends on what is there, so the buffer has to be settled before it
  cases i with
  | alloc a =>
    cases h
    exact ⟨_, rfl, hsame List.not_mem_nil (R.make hset (hresult _ rfl) sem.blank)⟩
  | dealloc v => exact absurd rfl (hdealloc v)
  | constant result value =>
    cases h
    exact ⟨_, rfl, hsame List.not_mem_nil (R.define hset (hresult _ rfl) _ fun _ h => nomatch h)⟩
  | arith result op lhs rhs =>
    simp only [Semantics.step, Option.bind_eq_bind, Option.bind_eq_some_iff, Option.pure_def, Option.some.injEq] at h
    obtain ⟨x, hx, y, hy, z, hz, rfl⟩ := h
    obtain ⟨hl, hfl⟩ := hreads lhs (by simp [Instr.operands])
    obtain ⟨hr, hfr⟩ := hreads rhs (by simp [Instr.operands])
    refine ⟨τ.define result (.word z), ?_, hsame ?_ (R.define hset (hresult _ rfl) _ fun _ h => nomatch h)⟩
    · simp [Instr.mapOperands, Semantics.step, R.word hl hfl hx, R.word hr hfr hy, hz]
    · simp [Instr.operands, (R.ne_of_word hfl hx).symm, (R.ne_of_word hfr hy).symm]
  | loop l => cases h
  | load result v indices =>
    simp only [Semantics.step, Option.bind_eq_bind, Option.bind_eq_some_iff, Option.pure_def, Option.some.injEq] at h
    obtain ⟨place, hplace, ns, hns, rfl⟩ := h
    obtain ⟨hv, hfv⟩ := hreads v (by simp [Instr.operands])
    obtain ⟨-, hns'⟩ := hwords (fun w hw => List.mem_cons_of_mem _ hw) hns
    have hsettled : buffer ∈ (Instr.load result v indices).operands → settled := fun hb => by simpa using hfirst hb
    have hcontent := R.content hv hfv hplace fun hb => hsettled (hb ▸ List.mem_cons_self)
    refine ⟨τ.load result (σ.contents place ns), ?_, (R.load hset (hresult _ rfl) _).imp fun h => h.elim id hsettled⟩
    simp [Instr.mapOperands, Semantics.step, R.place hv hfv hplace, mapIdx_const, hns', hcontent]
  | store value v indices =>
    simp only [Semantics.step, Option.bind_eq_bind, Option.bind_eq_some_iff, Option.pure_def, Option.some.injEq] at h
    obtain ⟨n, hn, place, hplace, ns, hns, rfl⟩ := h
    obtain ⟨hw, hfw⟩ := hreads value (by simp [Instr.operands])
    obtain ⟨hv, hfv⟩ := hreads v (by simp [Instr.operands])
    obtain ⟨-, hns'⟩ := hwords (fun w hw => List.mem_cons_of_mem _ (List.mem_cons_of_mem _ hw)) hns
    have hsettled : buffer ∈ (Instr.store value v indices).operands → settled := fun hb => by simpa using hfirst hb
    have hcontent := R.content hv hfv hplace fun hb => hsettled (by simp [Instr.operands, hb])
    refine ⟨_, ?_, (R.write hset hv hfv hplace _).imp fun h => Or.inl (h.elim id hsettled)⟩
    simp [Instr.mapOperands, Semantics.step, R.word hw hfw hn, R.place hv hfv hplace, mapIdx_const, hns', hcontent]
  | fill v value =>
    simp only [Semantics.step, Option.bind_eq_bind, Option.bind_eq_some_iff, Option.pure_def, Option.some.injEq] at h
    obtain ⟨place, hplace, n, hn, rfl⟩ := h
    obtain ⟨hv, hfv⟩ := hreads v (by simp [Instr.operands])
    obtain ⟨hw, hfw⟩ := hreads value (by simp [Instr.operands])
    have hne := R.ne_of_word hfw hn
    refine ⟨_, ?_, (R.write hset hv hfv hplace _).imp fun h => h.imp_right fun hb => ?_⟩
    · simp [Instr.mapOperands, Semantics.step, R.word hw hfw hn, R.place hv hfv hplace]
    · simpa [Instr.operands, hne.symm, eq_comm] using hb
  | copy source target =>
    simp only [Semantics.step, Option.bind_eq_bind, Option.bind_eq_some_iff, Option.pure_def, Option.some.injEq] at h
    obtain ⟨from₀, hfrom, place, hplace, rfl⟩ := h
    obtain ⟨hs, hfs⟩ := hreads source (by simp [Instr.operands])
    obtain ⟨ht, hft⟩ := hreads target (by simp [Instr.operands])
    have hsettled : source = buffer → settled := by
      intro hb
      rcases hfirst (by simp [Instr.operands, hb]) with h | ⟨_, _, h⟩ | ⟨v, w, h, hne⟩
      · exact h
      · cases h
      · cases h
        exact absurd hb hne
    have hcontent := R.content hs hfs hfrom hsettled
    refine ⟨_, ?_, (R.write hset ht hft hplace _).imp fun h => h.elim Or.inl fun hb => ?_⟩
    · simp [Instr.mapOperands, Semantics.step, R.place hs hfs hfrom, R.place ht hft hplace, hcontent]
    · simp only [Instr.operands, List.mem_cons, List.not_mem_nil, or_false] at hb
      exact hb.imp (fun hb => hsettled hb.symm) Eq.symm
  | compute name inputs outputs =>
    simp only [Semantics.step, Option.bind_eq_bind, Option.bind_eq_some_iff, Option.pure_def, Option.some.injEq] at h
    obtain ⟨readings, hreadings, places, hplaces, rfl⟩ := h
    have hsettled : buffer ∈ inputs ++ outputs → settled := fun hb => by simpa using hfirst hb
    have hout : ∀ v ∈ outputs, v ∈ inputs ++ outputs := fun v hv => List.mem_append_right _ hv
    have hreadings' := mapM_map (e := id) hreadings fun v hv r hr =>
      R.read (hreads v hv).1 (hreads v hv).2 hr fun hb => hsettled (hb ▸ hv)
    have hplaces' := mapM_map hplaces fun v hv place hplace =>
      R.place (hreads v (hout v hv)).1 (hreads v (hout v hv)).2 hplace
    rw [List.map_id, List.map_append] at hreadings'
    have hwrite := R.writeAll hset (fun v hv => (hreads v (hout v hv)).1) (fun hb => hfocus (hout _ hb)) hplaces
      (sem.compute name readings) 0
    refine ⟨_, ?_, hwrite.imp fun h => Or.inl (h.elim id hsettled)⟩
    simp [Instr.mapOperands, Semantics.step, mapIdx_const, hreadings', hplaces']
  | selectSlot result slots index => exact absurd rfl (hselect result slots index)
  | barrier | yield | ret =>
    cases h
    exact ⟨τ, rfl, hsame List.not_mem_nil R⟩

end Related
end SlotRotation
