import AspikePort.ExternalTerms

/-!
# Rows that begin with complete terms

A reader takes a row of heads from its start and counts how many terms are
still due: a head is one of them and announces others. The heads it has taken
when nothing is due any more are the ones that stand for the terms.
-/

set_option autoImplicit false

namespace AspikePort.ExternalTerms
open AspikePort.ErlangTerms

section Due

/-- How many of the terms that follow belong to the head. -/
def Tok.arity : Tok → ℕ
  | .tuple arity => arity
  | .list length => length+1
  | .map arity => 2*arity
  | _ => 0

/-- What is left of the row behind that many terms. -/
def after : List Tok → ℕ → Option (List Tok)
  | toks, 0 => some toks
  | [], _+1 => none
  | tok::toks, due+1 => after toks (tok.arity+due)

def Begins (toks : List Tok) (due : ℕ) : Prop := (after toks due).isSome

@[simp] theorem after_zero (toks : List Tok) : after toks 0 = some toks := by
  cases toks <;> rfl

@[simp] theorem begins_zero (toks : List Tok) : Begins toks 0 := by
  unfold Begins
  rw [after_zero]
  rfl

@[simp] theorem begins_cons (tok : Tok) (toks : List Tok) (due : ℕ) :
    Begins (tok::toks) (due+1) ↔ Begins toks (tok.arity+due) := Iff.rfl

theorem begins_nil (due : ℕ) : Begins [] due ↔ due = 0 := by
  cases due with
  | zero => exact iff_of_true (begins_zero []) rfl
  | succ due => exact iff_of_false Bool.false_ne_true (Nat.succ_ne_zero due)

theorem after_add (toks : List Tok) (m n : ℕ) :
    after toks (m+n) = (after toks m).bind (fun rest => after rest n) := by
  induction toks generalizing m with
  | nil =>
    cases m with
    | zero =>
      rw [Nat.zero_add,after_zero]
      rfl
    | succ m =>
      rw [Nat.add_right_comm]
      rfl
  | cons tok toks ih =>
    cases m with
    | zero =>
      rw [Nat.zero_add,after_zero]
      rfl
    | succ m =>
      rw [Nat.add_right_comm]
      show after toks (tok.arity+(m+n)) = (after toks (tok.arity+m)).bind _
      rw [← Nat.add_assoc,ih]

end Due

section Taken

/-- A head takes its terms off the stack and puts one on it. -/
theorem value_takes {tok : Tok} {st ts : List Term} (h : tok.value st = some ts) :
    ∃ t rest, ts = t::rest ∧ tok.arity+rest.length = st.length := by
  cases tok with
  | tuple arity =>
    rw [Tok.value] at h
    split_ifs at h with hn
    refine ⟨_,_,(Option.some.inj h).symm,?_⟩
    rw [Tok.arity,List.length_drop]
    omega
  | list length =>
    obtain ⟨tail,htail,heq⟩ := Option.map_eq_some_iff.mp h
    refine ⟨_,_,heq.symm,?_⟩
    have hlength : length < st.length := by
      by_contra hc
      rw [List.drop_eq_nil_of_le (by omega)] at htail
      cases htail
    rw [Tok.arity,List.length_drop]
    omega
  | map arity =>
    rw [Tok.value] at h
    split_ifs at h with hn
    refine ⟨_,_,(Option.some.inj h).symm,?_⟩
    rw [Tok.arity,List.length_drop]
    omega
  | _ =>
    cases h
    exact ⟨_,_,rfl,Nat.zero_add _⟩

theorem value_taken {tok : Tok} {st : List Term} (h : tok.arity ≤ st.length) :
    ∃ ts, tok.value st = some ts := by
  cases tok with
  | tuple arity => exact ⟨_,if_pos h⟩
  | list length =>
    have hlength : length < st.length := h
    have hdrop : (st.drop length).head? = some st[length] := by
      rw [List.head?_drop]
      exact List.getElem?_eq_getElem hlength
    show ∃ ts, (st.drop length).head?.map _ = some ts
    rw [hdrop]
    exact ⟨_,rfl⟩
  | map arity => exact ⟨_,if_pos h⟩
  | _ => exact ⟨_,rfl⟩

theorem after_terms {toks : List Tok} {ts : List Term} (h : terms toks = some ts)
    (post : List Tok) : after (toks ++ post) ts.length = some post := by
  induction toks generalizing ts with
  | nil =>
    cases h
    exact after_zero post
  | cons tok toks ih =>
    obtain ⟨st,hst,hvalue⟩ := Option.bind_eq_some_iff.mp h
    obtain ⟨t,rest,rfl,hlength⟩ := value_takes hvalue
    show after (toks ++ post) (tok.arity+rest.length) = some post
    rw [hlength,ih hst]

theorem terms_after {toks post : List Tok} {due : ℕ} (h : after toks due = some post) :
    ∃ pre ts, toks = pre ++ post ∧ terms pre = some ts ∧ ts.length = due := by
  induction toks generalizing due with
  | nil =>
    cases due with
    | zero =>
      cases h
      exact ⟨[],[],rfl,rfl,rfl⟩
    | succ due => cases h
  | cons tok toks ih =>
    cases due with
    | zero =>
      cases h
      exact ⟨[],[],rfl,rfl,rfl⟩
    | succ due =>
      obtain ⟨pre,st,hsplit,hst,hlength⟩ := ih h
      obtain ⟨ts,hts⟩ : ∃ ts, tok.value st = some ts := value_taken (by omega)
      obtain ⟨t,rest,rfl,htakes⟩ := value_takes hts
      refine ⟨tok::pre,t::rest,congrArg _ hsplit,?_,?_⟩
      · show (terms pre).bind tok.value = _
        rw [hst]
        exact hts
      · rw [List.length_cons]
        omega

/-- Counting from the start agrees with the stack that is filled from the end. -/
theorem begins_iff (toks : List Tok) (due : ℕ) : Begins toks due ↔
    ∃ pre post ts, toks = pre ++ post ∧ terms pre = some ts ∧ ts.length = due := by
  constructor
  · intro h
    obtain ⟨post,hpost⟩ := Option.isSome_iff_exists.mp h
    obtain ⟨pre,ts,hsplit,hts,hlength⟩ := terms_after hpost
    exact ⟨pre,post,ts,hsplit,hts,hlength⟩
  · rintro ⟨pre,post,ts,rfl,hts,rfl⟩
    unfold Begins
    rw [after_terms hts]
    rfl

/-- Complete terms are taken off what is due. -/
theorem begins_append {toks : List Tok} {ts : List Term} (h : terms toks = some ts)
    (post : List Tok) (due : ℕ) : Begins (toks ++ post) (ts.length+due) ↔ Begins post due := by
  unfold Begins
  rw [after_add,after_terms h]
  rfl

theorem begins_writes {toks : List Tok} {t : Term} (h : Writes toks [t]) (post : List Tok)
    (due : ℕ) : Begins (toks ++ post) (due+1) ↔ Begins post due := by
  rw [Nat.add_comm]
  exact begins_append h.all post due

theorem arity_le {pre : List Tok} {ts : List Term} (h : terms pre = some ts) :
    ts.length ≤ pre.length ∧ ∀ tok ∈ pre, tok.arity ≤ pre.length := by
  induction pre generalizing ts with
  | nil =>
    cases h
    exact ⟨le_rfl,fun _ hmem => absurd hmem List.not_mem_nil⟩
  | cons tok pre ih =>
    obtain ⟨st,hst,hvalue⟩ := Option.bind_eq_some_iff.mp h
    obtain ⟨t,rest,rfl,htakes⟩ := value_takes hvalue
    obtain ⟨hlength,hall⟩ := ih hst
    rw [List.length_cons,List.length_cons]
    constructor
    · omega
    · intro tok' hmem
      rcases List.mem_cons.mp hmem with rfl | hmem
      · omega
      · exact (hall tok' hmem).trans (Nat.le_succ _)

end Taken

section Completed

/-- What a head makes of its terms does not depend on what lies behind them. -/
theorem value_append {tok : Tok} {st ts : List Term} (h : tok.value st = some ts)
    (more : List Term) : tok.value (st ++ more) = some (ts ++ more) := by
  obtain ⟨t,rest,rfl,htakes⟩ := value_takes h
  cases tok with
  | tuple arity =>
    have hle : arity ≤ st.length := Nat.le.intro htakes
    rw [Tok.value,if_pos hle] at h
    rw [Tok.value,if_pos (by rw [List.length_append]; omega),List.take_append_of_le_length hle,
      List.drop_append_of_le_length hle,← Option.some.inj h]
    rfl
  | list length =>
    have hlt : length < st.length := by
      change length+1+rest.length = st.length at htakes
      omega
    obtain ⟨tail,htail,heq⟩ := Option.map_eq_some_iff.mp h
    have hdrop : ((st ++ more).drop length).head? = some tail := by
      rw [List.drop_append_of_le_length hlt.le,List.head?_append,htail]
      rfl
    rw [Tok.value,hdrop,List.take_append_of_le_length hlt.le,List.drop_append_of_le_length hlt,
      ← heq]
    rfl
  | map arity =>
    have hle : 2*arity ≤ st.length := Nat.le.intro htakes
    rw [Tok.value,if_pos hle] at h
    rw [Tok.value,if_pos (by rw [List.length_append]; omega),List.take_append_of_le_length hle,
      List.drop_append_of_le_length hle,← Option.some.inj h]
    rfl
  | _ =>
    cases h
    rfl

/-- A complete row stands for its terms whatever follows it. -/
theorem writes_terms {toks : List Tok} {ts : List Term} (h : terms toks = some ts) :
    Writes toks ts := by
  intro rest
  induction toks generalizing ts with
  | nil =>
    cases h
    exact writes_nil rest
  | cons tok toks ih =>
    obtain ⟨st,hst,hvalue⟩ := Option.bind_eq_some_iff.mp h
    show (terms (toks ++ rest)).bind tok.value = _
    rw [ih hst]
    cases terms rest with
    | none => rfl
    | some more => exact value_append hvalue more

/-- Enough leaves complete any row. -/
theorem padded (toks : List Tok) : ∃ k ts, terms (toks ++ List.replicate k .nil) = some ts := by
  have hleaves : ∀ k, terms (List.replicate k .nil) = some (List.replicate k .nil) := by
    intro k
    induction k with
    | zero => rfl
    | succ k ih =>
      show (terms (List.replicate k .nil)).bind Tok.nil.value = _
      rw [ih]
      rfl
  induction toks with
  | nil => exact ⟨0,[],rfl⟩
  | cons tok toks ih =>
    obtain ⟨k,st,hst⟩ := ih
    have hmore : terms (toks ++ List.replicate (k+tok.arity) .nil) =
        some (st ++ List.replicate tok.arity .nil) := by
      rw [List.replicate_add,← List.append_assoc,writes_terms hst,hleaves]
      rfl
    have hdue : tok.arity ≤ (st ++ List.replicate tok.arity Term.nil).length := by
      rw [List.length_append,List.length_replicate]
      omega
    obtain ⟨ts,hts⟩ := value_taken hdue
    refine ⟨k+tok.arity,ts,?_⟩
    show (terms (toks ++ List.replicate (k+tok.arity) .nil)).bind tok.value = _
    rw [hmore]
    exact hts

end Completed

section First

/-- What `binary_to_term` makes of bytes that may hold more than one term. -/
def FirstTerm (b : Bytes) (t : Term) : Prop :=
  ∃ pre rest, AllValid pre ∧ b = 131::(pre.flatMap Tok.bytes ++ rest) ∧ terms pre = some [t]

theorem first_of_writes {toks post : List Tok} {t : Term} (hvalid : AllValid (toks ++ post))
    (h : Writes toks [t]) : FirstTerm (131::(toks ++ post).flatMap Tok.bytes) t :=
  ⟨toks,post.flatMap Tok.bytes,fun tok htok => hvalid tok (List.mem_append_left post htok),
    congrArg (131::·) List.flatMap_append,h.all⟩

/-- The row may end in the middle of what lies behind its first term. -/
theorem first_padded {toks : List Tok} {t : Term} (hvalid : AllValid toks)
    (h : FirstTerm (131::toks.flatMap Tok.bytes) t) :
    ∃ k more, terms (toks ++ List.replicate k .nil) = some (t::more) := by
  obtain ⟨pre,rest,hpre,hbytes,hterms⟩ := h
  have hsplit : ∃ post, toks = pre ++ post := by
    have heq : pre.flatMap Tok.bytes ++ rest = toks.flatMap Tok.bytes ++ [] := by
      rw [List.append_nil,(List.cons.inj hbytes).2]
    rcases bytes_prefixFree.comparable hpre hvalid heq with ⟨post,hpost⟩ | ⟨zs,rfl⟩
    · exact ⟨post,hpost.symm⟩
    · rw [List.append_nil,List.flatMap_append,List.append_assoc] at heq
      have hnone := (List.append_eq_nil_iff.mp (List.append_right_eq_self.mp heq)).1
      have hzs : AllValid zs := fun tok htok => hpre tok (List.mem_append_right toks htok)
      have hempty : zs = [] := bytes_prefixFree.flatMap_injective hzs allValid_nil hnone
      exact ⟨[],by rw [hempty,List.append_nil,List.append_nil]⟩
  obtain ⟨post,rfl⟩ := hsplit
  obtain ⟨k,more,hmore⟩ := padded post
  refine ⟨k,more,?_⟩
  rw [List.append_assoc,writes_terms hterms,hmore]
  rfl

/-- A row that stands for one term does not start another such row. -/
theorem first_row_unique {xs ys : List Tok} {t u : Term} (h : xs <+: ys)
    (hxs : terms xs = some [t]) (hys : terms ys = some [u]) : t = u := by
  obtain ⟨zs,rfl⟩ := h
  have hafter := after_terms hys []
  rw [List.append_nil] at hafter
  have hnone : zs = [] := Option.some.inj ((after_terms hxs zs).symm.trans hafter)
  rw [hnone,List.append_nil,hxs] at hys
  exact (List.cons.inj (Option.some.inj hys)).1

theorem firstTerm_unique {b : Bytes} {t u : Term} (ht : FirstTerm b t) (hu : FirstTerm b u) :
    t = u := by
  obtain ⟨xs,xrest,hxs,rfl,hxterms⟩ := ht
  obtain ⟨ys,yrest,hys,heq,hyterms⟩ := hu
  rcases bytes_prefixFree.comparable hxs hys (List.cons.inj heq).2 with hle | hle
  · exact first_row_unique hle hxterms hyterms
  · exact (first_row_unique hle hyterms hxterms).symm

end First

end AspikePort.ExternalTerms
