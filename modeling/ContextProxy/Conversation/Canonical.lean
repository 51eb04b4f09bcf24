import ContextProxy.Conversation.Reconciliation

/-!
# Reconciliation sees canonical messages

`equivalent` compares canonical messages, and `_is_compaction_summary` reads of the fields that `canonical_message` changes only the text of the content. So a client that adds, changes or drops reasoning, or cuts its text into other parts, gets the same result.

The same canonical message means the same value, up to the order of fields. Python's `==` is coarser, since `True == 1`; where messages are only `==`, they also have to be summaries alike (`reconcileProjection_congr`).
-/

namespace ContextProxy

open Json

/-- One canonical message, up to the order of fields. -/
def SameCanonical (a b : Message) : Prop := sortedFields (canonicalMessage a) = sortedFields (canonicalMessage b)

instance (a b : Message) : Decidable (SameCanonical a b) :=
  inferInstanceAs (Decidable (sortedFields (canonicalMessage a) = sortedFields (canonicalMessage b)))

/-! ### What clients change -/

def canonicalContent (content : Json) : Json :=
  match textContent content with
  | some text => .str text
  | none => content

theorem textContent_canonicalContent (content : Json) : textContent (canonicalContent content) = textContent content := by
  rw [canonicalContent]
  cases htext : textContent content with
  | some text => rfl
  | none => exact htext

variable {message : Message}

theorem map_canonicalContent_of_text {text : String} (htext : textContent (Json.get message "content") = some text) :
    (message.lookup "content").map canonicalContent = some (.str text) := by
  rw [Json.get] at htext
  cases hlookup : message.lookup "content" with
  | none => simp [hlookup, textContent] at htext
  | some content =>
    rw [hlookup, Option.getD_some] at htext
    rw [Option.map_some, canonicalContent, htext]

theorem map_canonicalContent_of_none (htext : textContent (Json.get message "content") = none) :
    (message.lookup "content").map canonicalContent = message.lookup "content" := by
  rw [Json.get] at htext
  cases hlookup : message.lookup "content" with
  | none => rfl
  | some content =>
    rw [hlookup, Option.getD_some] at htext
    rw [Option.map_some, canonicalContent, htext]

theorem lookup_canonicalMessage (message : Message) (key : String) : (canonicalMessage message).lookup key
      = if key ∈ reasoningKeys then none
        else if key = "content" then (message.lookup "content").map canonicalContent
        else message.lookup key := by
  have hcontent : Json.get (reasoningKeys.foldl pop message) "content" = Json.get message "content" := by
    rw [Json.get, Json.get, lookup_foldl_pop, if_neg (by decide)]
  rw [canonicalMessage, hcontent]
  by_cases hkey : key = "content"
  · rw [if_neg (hkey ▸ by decide), if_pos hkey]
    split
    · rename_i text htext
      rw [lookup_set, if_pos hkey, map_canonicalContent_of_text htext]
    · rename_i htext
      rw [lookup_foldl_pop, if_neg (hkey ▸ by decide), hkey, map_canonicalContent_of_none htext]
  · rw [if_neg hkey]
    split
    · rw [lookup_set, if_neg hkey, lookup_foldl_pop]
    · rw [lookup_foldl_pop]

variable {a b : Message}

/-- The canonical message is known by the values under the other keys and by the canonical content. -/
theorem sameCanonical_of_lookup
    (hcontent : (a.lookup "content").map canonicalContent = (b.lookup "content").map canonicalContent)
    (h : ∀ key, key ∉ reasoningKeys → key ≠ "content" → a.lookup key = b.lookup key) : SameCanonical a b := by
  apply sortedFields_eq_of_lookup
  intro key
  rw [lookup_canonicalMessage, lookup_canonicalMessage]
  by_cases hreasoning : key ∈ reasoningKeys
  · rw [if_pos hreasoning, if_pos hreasoning]
  · rw [if_neg hreasoning, if_neg hreasoning]
    by_cases hkey : key = "content"
    · rw [if_pos hkey, if_pos hkey, hcontent]
    · rw [if_neg hkey, if_neg hkey, h key hreasoning hkey]

theorem sameCanonical_pop (message : Message) {key : String} (hkey : key ∈ reasoningKeys) :
    SameCanonical message (pop message key) := by
  have hne : ∀ k, k = key → k ∈ reasoningKeys := fun k heq => heq ▸ hkey
  apply sameCanonical_of_lookup
  · rw [lookup_pop, if_neg fun heq => absurd (hne _ heq) (by decide)]
  · intro k hk _
    rw [lookup_pop, if_neg fun heq => hk (hne k heq)]

theorem sameCanonical_set_reasoning (message : Message) {key : String} (hkey : key ∈ reasoningKeys) (value : Json) :
    SameCanonical message (Json.set message key value) := by
  have hne : ∀ k, k = key → k ∈ reasoningKeys := fun k heq => heq ▸ hkey
  apply sameCanonical_of_lookup
  · rw [lookup_set, if_neg fun heq => absurd (hne _ heq) (by decide)]
  · intro k hk _
    rw [lookup_set, if_neg fun heq => hk (hne k heq)]

theorem sameCanonical_set_content (message : Message) {content : Json} {text : String}
    (htext : textContent (Json.get message "content") = some text) (hcontent : textContent content = some text) :
    SameCanonical message (Json.set message "content" content) := by
  apply sameCanonical_of_lookup
  · rw [lookup_set, if_pos rfl, map_canonicalContent_of_text htext, Option.map_some, canonicalContent, hcontent]
  · intro k _ hk
    rw [lookup_set, if_neg hk]

/-! ### Summaries -/

theorem textParts_sortedItems (parts : List Json) : textParts (sortedItems parts) = textParts parts := by
  induction parts with
  | nil => rfl
  | cons part parts ih =>
    rw [sortedItems]
    cases part with
    | obj fields =>
      rw [sorted, textParts, textParts, get_sortedFields, get_sortedFields, ih]
      cases Json.get fields "type" with
      | str kind =>
        cases Json.get fields "text" with
        | _ => rfl
      | _ => rfl
    | _ => rfl

theorem textContent_sorted (content : Json) : textContent (sorted content) = textContent content := by
  cases content with
  | arr parts => exact textParts_sortedItems parts
  | _ => rfl

theorem sorted_eq_bool {a : Json} {b : Bool} : sorted a = .bool b ↔ a = .bool b := by
  cases a <;> simp [sorted]

theorem isCompactionMode_sorted (mode : Json) : isCompactionMode (sorted mode) = isCompactionMode mode := by
  cases mode <;> rfl

theorem hasCompactionFlag_sorted (metadata : Json) : hasCompactionFlag (sorted metadata) = hasCompactionFlag metadata := by
  cases metadata with
  | obj fields =>
    rw [sorted, hasCompactionFlag, hasCompactionFlag, get_sortedFields, get_sortedFields]
    congr 1
    · rw [Bool.eq_iff_iff, beq_iff_eq, beq_iff_eq, sorted_eq_bool]
    · rw [Bool.eq_iff_iff, beq_iff_eq, beq_iff_eq, sorted_eq_bool]
  | _ => rfl

theorem isCompactionSummary_sortedFields (message : Message) :
    isCompactionSummary (sortedFields message) = isCompactionSummary message := by
  simp only [isCompactionSummary, get_sortedFields, sorted_eq_bool, isCompactionMode_sorted, hasCompactionFlag_sorted,
    textContent_sorted]

theorem isCompactionSummary_canonicalMessage (message : Message) :
    isCompactionSummary (canonicalMessage message) = isCompactionSummary message := by
  have hother : ∀ key, key ∉ reasoningKeys → key ≠ "content" →
      Json.get (canonicalMessage message) key = Json.get message key := by
    intro key hkey hcontent
    rw [Json.get, Json.get, lookup_canonicalMessage, if_neg hkey, if_neg hcontent]
  have hcontent : textContent (Json.get (canonicalMessage message) "content") = textContent (Json.get message "content") := by
    rw [Json.get, Json.get, lookup_canonicalMessage, if_neg (by decide), if_pos rfl]
    cases message.lookup "content" with
    | none => rfl
    | some content => exact textContent_canonicalContent content
  rw [isCompactionSummary, isCompactionSummary, hother "summary" (by decide) (by decide),
    hother "mode" (by decide) (by decide), hother "metadata" (by decide) (by decide), hcontent]

theorem SameCanonical.isCompactionSummary_eq (h : SameCanonical a b) : isCompactionSummary a = isCompactionSummary b := by
  rw [← isCompactionSummary_canonicalMessage a, ← isCompactionSummary_sortedFields, h, isCompactionSummary_sortedFields,
    isCompactionSummary_canonicalMessage]

/-! ### Reconciliation -/

def EqualCanonical (a b : Message) : Prop := pyEq (.obj (canonicalMessage a)) (.obj (canonicalMessage b)) = true

theorem SameCanonical.equalCanonical (h : SameCanonical a b) : EqualCanonical a b :=
  pyEq_of_sorted (congrArg Json.obj h)

theorem equivalent_of_equalCanonical {a' b' : Message} (ha : EqualCanonical a a') (hb : EqualCanonical b b')
    (h : equivalent a b = true) : equivalent a' b' = true := by
  have ha' : equivalent a' a = true := equivalent_iff.mpr (.inl (pyEq_symm ha))
  have hb' : equivalent b b' = true := equivalent_iff.mpr (.inl hb)
  exact equivalent_trans ha' (equivalent_trans h hb')

theorem equivalent_congr (a a' b b' : Message) (ha : EqualCanonical a a') (hb : EqualCanonical b b') :
    equivalent a b = equivalent a' b' := by
  rw [Bool.eq_iff_iff]
  exact ⟨equivalent_of_equalCanonical ha hb, equivalent_of_equalCanonical (pyEq_symm ha) (pyEq_symm hb)⟩

section Congr

variable {persisted persisted' incoming incoming' : List Message}

section

variable (hp : List.Forall₂ EqualCanonical persisted persisted') (hi : List.Forall₂ EqualCanonical incoming incoming')
include hp hi

theorem anchorScan_congr (common lower last : ℕ) :
    anchorScan persisted incoming common lower last = anchorScan persisted' incoming' common lower last := by
  have hwalk := walkBack_congr equivalent_congr hp hi
  induction last with
  | zero => rfl
  | succ before ih => rw [anchorScan, anchorScan, hp.length_eq, hwalk, ih]

theorem anchorBeforeTail_congr (common : ℕ) :
    anchorBeforeTail persisted incoming common = anchorBeforeTail persisted' incoming' common := by
  rw [anchorBeforeTail, anchorBeforeTail, hp.length_eq, hi.length_eq, anchorScan_congr hp hi]

theorem suffixResult_congr : suffixResult persisted incoming = suffixResult persisted' incoming' := by
  rw [suffixResult, suffixResult, suffixMatch, suffixMatch, walkBack_congr equivalent_congr hp hi,
    hp.length_eq, hi.length_eq]

end

theorem any_isCompactionSummary_congr
    (hi : List.Forall₂ (fun a b => isCompactionSummary a = isCompactionSummary b) incoming incoming') :
    incoming.any isCompactionSummary = incoming'.any isCompactionSummary := by
  induction hi with
  | nil => rfl
  | cons hsummary _ ih => rw [List.any_cons, List.any_cons, hsummary, ih]

theorem anchorResult_congr (hi : List.Forall₂ (fun a b => isCompactionSummary a = isCompactionSummary b) incoming incoming')
    (common : ℕ) (anchor : ℕ × ℕ × ℕ) : anchorResult incoming common anchor = anchorResult incoming' common anchor := by
  obtain ⟨persistedStart, incomingStart, incomingEnd⟩ := anchor
  have hgap : ((incoming.take incomingStart).drop common).any isCompactionSummary
      = ((incoming'.take incomingStart).drop common).any isCompactionSummary :=
    any_isCompactionSummary_congr (List.forall₂_drop common (List.forall₂_take incomingStart hi))
  simp only [anchorResult, hgap, hi.length_eq]

/-- Messages may be replaced by others with an `==` canonical message, as long as they are summaries alike. -/
theorem reconcileProjection_congr (hp : List.Forall₂ EqualCanonical persisted persisted')
    (hi : List.Forall₂ EqualCanonical incoming incoming')
    (hsummary : List.Forall₂ (fun a b => isCompactionSummary a = isCompactionSummary b) incoming incoming') :
    reconcileProjection persisted incoming = reconcileProjection persisted' incoming' := by
  have hprefix : prefixLen persisted incoming = prefixLen persisted' incoming' :=
    agreeLen_congr equivalent_congr hp hi
  have hnil : persisted = [] ↔ persisted' = [] := by
    rw [← List.length_eq_zero_iff, ← List.length_eq_zero_iff, hp.length_eq]
  have hnil' : incoming = [] ↔ incoming' = [] := by
    rw [← List.length_eq_zero_iff, ← List.length_eq_zero_iff, hi.length_eq]
  have hanchor : ∀ common, anchorResult incoming common = anchorResult incoming' common := fun common =>
    funext (anchorResult_congr hsummary common)
  simp only [reconcileProjection, hprefix, anchorBeforeTail_congr hp hi, hanchor, suffixResult_congr hp hi, hnil, hnil',
    hp.length_eq, hi.length_eq]

/-- Reconciliation sees only canonical content: replacing messages by others with the same canonical message changes nothing. -/
theorem reconcileProjection_canonical (hp : List.Forall₂ SameCanonical persisted persisted')
    (hi : List.Forall₂ SameCanonical incoming incoming') :
    reconcileProjection persisted incoming = reconcileProjection persisted' incoming' :=
  reconcileProjection_congr (hp.imp fun _ _ => SameCanonical.equalCanonical)
    (hi.imp fun _ _ => SameCanonical.equalCanonical) (hi.imp fun _ _ => SameCanonical.isCompactionSummary_eq)

end Congr

/-- Reasoning may be added on the persisted side and text cut into parts on the incoming side. -/
theorem reconcileProjection_canonical_parts :
    reconcileProjection [textMessage "user" "Hello."] [textMessage "user" "Hello."]
      = reconcileProjection [Json.set (textMessage "user" "Hello.") "reasoning" (.str "A greeting.")]
        [Json.set (textMessage "user" "Hello.") "content" (.arr
          [.obj [("type", .str "text"), ("text", .str "Hel")], .obj [("type", .str "text"), ("text", .str "lo.")]])] :=
  reconcileProjection_canonical
    (.cons (sameCanonical_set_reasoning _ (by decide) _) .nil)
    (.cons (sameCanonical_set_content _ rfl rfl) .nil)

-- A summary flag of `1` is `==` to `True`, but it does not make a summary.
example :
    EqualCanonical [("role", .str "user"), ("summary", .int 1)] [("role", .str "user"), ("summary", .bool true)]
    ∧ isCompactionSummary [("role", .str "user"), ("summary", .int 1)] = false
    ∧ isCompactionSummary [("role", .str "user"), ("summary", .bool true)] = true :=
  ⟨pyEq_iff.mpr rfl, by decide, by decide⟩

end ContextProxy
