import AspikePort.PutAgreement

/-!
# When every element of a data list is written

The element loop never fails: an element of the wrong type is passed over and
the position moves on. The operations of an accepted put are three for each
triple, under that triple's own key, exactly when the data lists are made of
complete triples that the client can store.
-/

set_option autoImplicit false

namespace AspikePort.TripleWrites
open AspikePort.ErlangTerms AspikePort.ClientValues AspikePort.NifWorld
open AspikePort.CdtPut AspikePort.PutOperations AspikePort.PutAgreement

section Lists
variable {α β : Type} {E S : α → List β}

theorem flatMap_length_le {xs : List α} (h : ∀ x ∈ xs, (E x).length ≤ (S x).length) :
    (xs.flatMap E).length ≤ (xs.flatMap S).length := by
  induction xs with
  | nil => exact le_rfl
  | cons x xs ih =>
    have hx := h x List.mem_cons_self
    have hxs := ih (fun y hy => h y (List.mem_cons_of_mem _ hy))
    simp only [List.flatMap_cons,List.length_append]
    omega

/-- Blocks that are never longer than the expected ones, and the same in
total, are the expected ones. -/
theorem eq_of_flatMap_eq {xs : List α} (hle : ∀ x ∈ xs, (E x).length ≤ (S x).length)
    (h : xs.flatMap E = xs.flatMap S) : ∀ x ∈ xs, E x = S x := by
  induction xs with
  | nil => simp
  | cons x xs ih =>
    have hx := hle x List.mem_cons_self
    have hrest : ∀ y ∈ xs, (E y).length ≤ (S y).length :=
      fun y hy => hle y (List.mem_cons_of_mem _ hy)
    have hxs := flatMap_length_le hrest
    have hlength := congrArg List.length h
    simp only [List.flatMap_cons,List.length_append] at h hlength
    obtain ⟨hhead,htail⟩ := List.append_inj h (by omega)
    exact List.forall_mem_cons.mpr ⟨hhead,ih hrest htail⟩

end Lists

section Triples
variable (c : Client) (now : ℤ)

structure Triple where
  key : Bytes
  value : Bytes
  ttl : ℤ

def Triple.elements (t : Triple) : List Term := [.binary t.key,.binary t.value,.integer t.ttl]

/-- The three writes of one triple, all inside the map under its key. -/
def Triple.operations (bin : Bytes) (t : Triple) : List Operation :=
  [.mapPut bin [t.key] valueKey (.bytes t.value),.mapPut bin [t.key] ttlKey (.integer t.ttl),
    .mapPut bin [t.key] wtKey (.integer now)]

abbrev BinTriples := Bytes × List Triple

def binTerm (b : BinTriples) : Term := encodeBin (b.1,b.2.flatMap Triple.elements)

def binOperations (b : BinTriples) : List Operation := b.2.flatMap (Triple.operations now b.1)

/-- The client can store the triple under the very name and key it is given. -/
def Fits (name : Bytes) (t : Triple) : Prop :=
  0 ∉ name ∧ c.takesBin name = true ∧ 0 ∉ t.key ∧ -(2:ℤ)^63 ≤ t.ttl ∧ t.ttl < (2:ℤ)^63

/-- What the loop emits for one triple. -/
def written (bin : Bytes) (t : Triple) : List Operation :=
  valueOperations c bin [cStr t.key] (.binary t.value) ++
    ttlOperations c now bin [cStr t.key] (.integer t.ttl)

theorem emitted_triples (bin : Bytes) (context : List Bytes) (ts : List Triple) :
    emitted c now bin .key context (ts.flatMap Triple.elements) = ts.flatMap (written c now bin) := by
  induction ts generalizing context with
  | nil => rfl
  | cons t ts ih =>
    rw [List.flatMap_cons,List.flatMap_cons,written,List.append_assoc,← ih [cStr t.key]]
    rfl

theorem taken_length (op : Operation) : (taken c op).length ≤ 1 := by
  unfold taken
  split_ifs <;> simp

theorem written_length (bin : Bytes) (t : Triple) :
    (written c now bin t).length ≤ (t.operations now bin).length := by
  have hvalue := taken_length c (.mapPut (cStr bin) [cStr t.key] valueKey (.bytes t.value))
  have hwt := taken_length c (.mapPut (cStr bin) [cStr t.key] wtKey (.integer now))
  have httl := fun i => taken_length c (.mapPut (cStr bin) [cStr t.key] ttlKey (.integer i))
  simp only [written,valueOperations,inspectBinary,ttlOperations,List.length_append,
    Triple.operations,List.length_cons,List.length_nil]
  cases getInt64 (.integer t.ttl) with
  | none =>
    simp only [List.length_nil]
    omega
  | some i =>
    have := httl i
    simp only
    omega

theorem written_eq_iff (bin : Bytes) (t : Triple) :
    written c now bin t = t.operations now bin ↔ Fits c bin t := by
  by_cases htake : c.takesBin (cStr bin) = true
  · have htaken : ∀ key v, taken c (.mapPut (cStr bin) [cStr t.key] key v) =
        [.mapPut (cStr bin) [cStr t.key] key v] := fun _ _ => if_pos htake
    by_cases hint : -(2:ℤ)^63 ≤ t.ttl ∧ t.ttl < (2:ℤ)^63
    · have hget : getInt64 (.integer t.ttl) = some t.ttl := if_pos hint
      have hnames : cStr bin = bin ∧ cStr t.key = t.key ↔ 0 ∉ bin ∧ 0 ∉ t.key := by
        rw [cStr_eq_self,cStr_eq_self]
      simp only [written,valueOperations,ttlOperations,inspectBinary,hget,htaken,
        Triple.operations,Fits,List.cons_append,List.nil_append,List.cons.injEq,
        Operation.mapPut.injEq,and_true]
      constructor
      · rintro ⟨⟨hb,hk⟩,-⟩
        obtain ⟨hname,hkey⟩ := hnames.mp ⟨hb,hk⟩
        exact ⟨hname,hb ▸ htake,hkey,hint⟩
      · rintro ⟨hname,-,hkey,-⟩
        have hbk := hnames.mpr ⟨hname,hkey⟩
        exact ⟨hbk,hbk,hbk⟩
    · have hget : getInt64 (.integer t.ttl) = none := if_neg hint
      refine iff_of_false (fun h => ?_) (fun h => hint h.2.2.2)
      have hlength := congrArg List.length h
      simp [written,valueOperations,ttlOperations,inspectBinary,hget,htaken,
        Triple.operations] at hlength
  · refine iff_of_false (fun h => ?_) (fun h => ?_)
    · have hnil := emitted_untaken c now (Bool.eq_false_iff.mpr htake) .key [] t.elements
      have hone := emitted_triples c now bin [] [t]
      rw [List.flatMap_singleton,hnil,List.flatMap_singleton,h] at hone
      cases hone
    · rw [cStr_eq_self.mpr h.1] at htake
      exact htake h.2.1

theorem binPuts_triples (b : BinTriples) :
    binPuts c now (b.1,b.2.flatMap Triple.elements) = b.2.flatMap (written c now b.1) :=
  emitted_triples c now b.1 [] b.2

theorem binPuts_eq_iff (bs : List BinTriples) :
    bs.flatMap (fun b => binPuts c now (b.1,b.2.flatMap Triple.elements)) =
      bs.flatMap (binOperations now) ↔ ∀ b ∈ bs, ∀ t ∈ b.2, Fits c b.1 t := by
  simp only [binPuts_triples]
  constructor
  · intro h b hb t ht
    have hbin := eq_of_flatMap_eq (fun b _ => flatMap_length_le
      (fun t _ => written_length c now b.1 t)) h b hb
    exact (written_eq_iff c now b.1 t).mp
      (eq_of_flatMap_eq (fun t _ => written_length c now b.1 t) hbin t ht)
  · intro h
    refine List.flatMap_congr (fun b hb => List.flatMap_congr (fun t ht => ?_))
    exact (written_eq_iff c now b.1 t).mpr (h b hb t ht)

end Triples

section Calls
variable (c : Client)

def requestOperations : Request → List Operation
  | .keyOperate _ ops _ => ops.entries
  | _ => []

/-- All operations a call submits, in order. -/
def submittedOperations (p : Nif Term) (w : World) : List Operation :=
  ((submissions p w).getD []).flatMap requestOperations

/-- The operations are value, ttl and write time of each triple of the data
lists in turn, and nothing in the lists is left over. -/
def WritesTriples (now : ℤ) (bins : Term) (ops : List Operation) : Prop :=
  ∃ bs : List BinTriples, bins = ofList (bs.map binTerm) ∧ ops = bs.flatMap (binOperations now)

/-- The data lists are made of complete triples that fit. -/
def TriplesFit (bins : Term) : Prop :=
  ∃ bs : List BinTriples, bins = ofList (bs.map binTerm) ∧ ∀ b ∈ bs, ∀ t ∈ b.2, Fits c b.1 t

theorem async_operations {env : Env} {w : World} {ref : ℕ} {ns set key bins ttl policy : Term}
    (hw : w.isConnectedFlag = true)
    (h : submissions (cdtPutAsync c env (.reference ref) ns set key bins ttl policy) w ≠ none) :
    ∃ ds : List BinData, bins = ofList (ds.map encodeBin) ∧
      submittedOperations (cdtPutAsync c env (.reference ref) ns set key bins ttl policy) w =
        ds.flatMap (binPuts c env.now) := by
  obtain ⟨hkey,hbins⟩ := not_or.mp (fun hhead => h (submissions_badarg (async_head_refused hhead)))
  obtain ⟨k,hk⟩ := (binaryKey_cases ns set key).resolve_right hkey
  obtain ⟨n,hn⟩ := Option.ne_none_iff_exists'.mp hbins
  obtain ⟨bs,rfl,-⟩ := getListLength_some hn
  match bs with
  | [] =>
    refine ⟨[],rfl,?_⟩
    rw [submittedOperations,submissions_stopped (async_empty hk)]
    rfl
  | b::bs =>
    obtain ⟨httl,hpolicy⟩ := not_or.mp
      (fun hl => h (submissions_badarg (async_limits_refused hw hk hl)))
    obtain ⟨t,ht⟩ := Option.ne_none_iff_exists'.mp httl
    obtain ⟨-,-,p,hp⟩ := (policy_cases policy).resolve_right (fun hp => hpolicy hp.1)
    obtain ⟨ds,hds⟩ := (bins_cases (b::bs)).resolve_right
      (fun hb => h (submissions_badarg (async_bins_refused hw hk ht hp hb)))
    match ds with
    | d::ds =>
      refine ⟨d::ds,by rw [hds],?_⟩
      rw [hds,submittedOperations,async_submits hw hk ht hp]
      exact List.append_nil _

/-- An accepted `cdt_put_async` writes exactly value, ttl and write time for
each triple, under that triple's key, if and only if every data list consists
of complete triples that fit. -/
theorem triples_written_iff {env : Env} {w : World} {ref : ℕ}
    {ns set key bins ttl policy : Term} (hw : w.isConnectedFlag = true)
    (h : submissions (cdtPutAsync c env (.reference ref) ns set key bins ttl policy) w ≠ none) :
    WritesTriples env.now bins
      (submittedOperations (cdtPutAsync c env (.reference ref) ns set key bins ttl policy) w) ↔
    TriplesFit c bins := by
  obtain ⟨ds,hbins,hops⟩ := async_operations c hw h
  rw [hops]
  have hdata : ∀ bs : List BinTriples, bins = ofList (bs.map binTerm) →
      ds = bs.map (fun b => (b.1,b.2.flatMap Triple.elements)) := by
    intro bs hbs
    have henc := ofList_injective (hbins.symm.trans hbs)
    have hmap : bs.map binTerm =
        (bs.map (fun b => (b.1,b.2.flatMap Triple.elements))).map encodeBin := by
      rw [List.map_map]
      rfl
    rw [hmap] at henc
    exact encodeBin_injective.list_map henc
  refine exists_congr (fun bs => and_congr_right (fun hbs => ?_))
  rw [hdata bs hbs,List.flatMap_map]
  exact binPuts_eq_iff c env.now bs

theorem complete_triple_written : WritesTriples plainEnv.now (ofList [sampleBin [98] [97]])
    (submittedOperations (cdtPutAsync plainClient plainEnv (.reference 1) (.binary [110])
      (.binary [115]) (.binary [107]) (ofList [sampleBin [98] [97]]) (.integer 0)
      (.tuple [.nil,.nil,.nil,.nil])) connectedWorld) := by
  refine (triples_written_iff plainClient rfl (Option.isSome_iff_ne_none.mp (by decide))).mpr
    ⟨[([98],[⟨[97],[118],60⟩])],rfl,?_⟩
  simp [Fits,plainClient]

/-- A data list that ends after its value is accepted. -/
theorem partial_triple_written :
    ¬∀ (c : Client) (env : Env) (w : World), w.isConnectedFlag = true →
      ∀ (ref : ℕ) (ns set key bins ttl policy : Term),
      submissions (cdtPutAsync c env (.reference ref) ns set key bins ttl policy) w ≠ none →
      WritesTriples env.now bins
        (submittedOperations (cdtPutAsync c env (.reference ref) ns set key bins ttl policy) w) := by
  intro h
  obtain ⟨bs,hbins,-⟩ := h plainClient plainEnv connectedWorld rfl 1 (.binary [110])
    (.binary [115]) (.binary [107]) (ofList [encodeBin ([98],[.binary [97],.binary [118]])])
    (.integer 0) (.tuple [.nil,.nil,.nil,.nil]) (Option.isSome_iff_ne_none.mp (by decide))
  match bs with
  | [] => cases ofList_injective hbins
  | (name,[])::_ =>
    have hterm := (List.cons.inj (ofList_injective hbins)).1
    cases encodeBin_injective hterm
  | (name,t::ts)::_ =>
    have hterm := (List.cons.inj (ofList_injective hbins)).1
    have hdata := (Prod.mk.inj (encodeBin_injective hterm)).2
    simp [Triple.elements] at hdata

end Calls

end AspikePort.TripleWrites
