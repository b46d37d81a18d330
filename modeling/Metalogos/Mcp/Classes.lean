/-!
# The classification of the builtins

`src/builtins_classification.rs`: the role of every builtin and whether its effect can be undone. The table of the
source is one list of entries; its rows are here by class, and no name is twice in it.
-/
namespace Metalogos.Mcp

/-- mirrors src/builtins_classification.rs:62-67 -/
inductive Role where
  | pure
  | source
  | lift
  | sink
  deriving DecidableEq, Repr

/-- mirrors src/builtins_classification.rs:82-86 -/
inductive Reversibility where
  | pure
  | reversible
  | irreversible
  deriving DecidableEq, Repr

structure BuiltClass where
  role : Role
  reversibility : Reversibility
  deriving DecidableEq, Repr

/-- mirrors src/builtins_classification.rs:125-656, here and below -/
def sinksIrreversible : List String :=
  ["db_insert", "print", "delete_file", "exec", "exec_argv", "git_push", "respond", "respond_html",
   "respond_html_status", "respond_html_doc", "http_post", "http_post_multipart", "session_clear", "send_message",
   "send_photo", "answer_callback_query", "tts_send", "db_execute", "kv_delete", "mem_delete", "memory_export",
   "memory_forget_cascade", "forget", "sleep", "memory_prune", "mtree_forget", "cron_remove", "cron_run",
   "ask_approval", "human_delete", "human_forget", "human_respond", "send_document", "smtp_send",
   "smtp_send_html", "cal_create", "cal_delete", "card_create", "card_delete", "memory_forget", "voice_delete"]

def sinksReversible : List String :=
  ["write_file", "append_file", "session_login", "session_logout", "session_duty_enter", "session_duty_exit",
   "session_wake", "session_interrupt", "edit_message_text", "kv_set", "mem_set", "memorize", "vec_store",
   "memory_retain", "memory_release", "speak_start", "speak_stop", "listen_stop", "bounds_attach", "chunk_make",
   "proof_seal", "conv_start", "conv_add", "conv_end", "session_set", "memory_decay", "memory_boost",
   "memory_revise", "trace_start", "trace_end", "mtree_store", "cron_mark_fired", "cron_add", "recipe_save",
   "todo_add", "todo_update", "goal_set", "goals_add", "remind", "goal_complete", "goals_reflect",
   "cancel_remind", "remind_recurring", "human_create", "human_remember", "learn_preference", "imap_mark_read",
   "imap_move", "cal_update", "card_update", "reflex_train", "reflex_save", "reflex_bpe_save", "vision_generate",
   "vision_edit", "vision_export", "vision_export_raw", "vision_save", "vision_lora_generate", "media_save",
   "canary_insert", "llm_stream_close", "voice_enroll", "tts_speak", "audio_export", "voice_design", "voice_save",
   "video_render", "video_export", "av_mux", "frame_interp", "video_extend", "quarantine_write",
   "consent_ledger_export", "ledger_export", "ledger_export_intoto", "memory_retain_ttl", "approval_issue",
   "approval_revoke"]

def sourcesPure : List String :=
  ["stdin", "read_file", "file_exists", "list_dir", "mcp_call", "mcp_list_tools", "form_data", "json_body",
   "query_param", "request_header", "html_select", "html_text", "html_links", "feed_parse", "sitemap_parse",
   "xml_parse", "http_get", "require", "request_body", "web_search", "geo_ip", "weather", "weather_forecast",
   "generate_key", "session_poll_wake", "session_take_interrupt", "whisper_transcribe", "tts_generate", "env",
   "env_or", "query", "call_llm", "call_claude", "llm_usage", "call_llm_schema", "kv_get", "kv_exists", "kv_list",
   "mem_get", "recall_top_k", "vec_search", "recall", "memory_keys", "memory_provenance",
   "memory_cascade_preview", "memory_retained", "duplex_state", "find", "inspect", "conv_history", "conv_context",
   "session_get", "ref", "deref", "now", "time", "graph_query", "graph_path", "graph_neighbors",
   "subgraph_extract", "mtree_summarize", "mtree_retrieve", "mtree_stats", "cron_list", "event_count",
   "events_since", "event_sum", "query_scalar", "query_row", "recipe_search", "recipe_list",
   "resolve_skill_index", "replay_snapshot", "policy_check", "semantic_search", "config_load", "todo_list",
   "goal_get", "goals_list", "get_profile", "human_mood", "check_reminders", "list_reminders", "human_personas",
   "human_recall", "read_file_tokens", "secret", "imap_list", "imap_read", "imap_search", "cal_connect",
   "cal_list", "cal_events", "cal_read", "cal_freebusy", "card_connect", "card_list", "card_contacts",
   "card_read", "card_search", "reflex_load", "reflex_list", "attest_verify", "reflex_generate",
   "reflex_bpe_load", "vision_list", "vision_load", "vision_lora_load", "media_meta", "media_source_capture",
   "backend_list", "backend_select", "media_manifest", "media_manifest_read", "canary_check", "user_profile",
   "llm_stream_open", "llm_stream_next", "server_path_param", "voice_load", "video_understand", "stt_transcribe",
   "omni_ask", "vision_understand", "deny_event", "deny_reason", "ocr_extract", "ledger_verify", "forecast_state",
   "forecast_points", "llm_last_finish_reason", "read_file_or", "voice_list", "now_unix", "capability_state"]

def sourcesReversible : List String :=
  ["http_download", "memory_open", "memory_read", "duplex_open", "listen_start", "device_open", "device_state",
   "world_state", "pose_make", "trajectory_make", "goal_make", "proof_verify", "vision_fetch_weights",
   "video_fetch_weights", "series_make", "series_pull", "forecast_next"]

def liftsPure : List String :=
  ["escape_html", "escape_json", "redact", "escape_js", "render", "hash_password", "encrypt", "sha256",
   "hmac_sha256", "template_render", "html_render", "consent_grant", "consent_revoke", "likeness_challenge",
   "likeness_verify"]

def liftsReversible : List String :=
  ["media_store_image", "media_store_audio", "media_store_video_frame", "media_store_video_segment"]

def liftsIrreversible : List String :=
  ["ledger_rotate", "ledger_snapshot"]

def pures : List String :=
  ["upper", "lower", "len", "str", "contains", "index_of", "substring", "char_at", "starts_with", "ends_with",
   "trim", "replace", "split", "join", "length", "reverse", "fuzzy_match", "strip", "chomp", "repeat", "pad_left",
   "pad_right", "lines", "words", "token_count", "type_of", "format", "trim_start", "trim_end", "truncate",
   "slugify", "word_wrap", "capitalize", "title_case", "__trim", "__replace", "__split", "__join", "__abs",
   "__min", "__max", "__clamp", "__round", "__first", "__last", "abs", "min", "max", "clamp", "round", "exp",
   "ln", "sqrt", "pow", "tanh", "sigmoid", "softmax", "random_seed", "random", "newline", "split_tokens", "if_eq",
   "is_string_token", "float", "to_string", "to_float", "get", "push", "slice", "zip", "sort_by", "filter",
   "reduce", "dedup", "condense", "unique", "chunk", "sort", "first", "last", "make_list", "matches_any",
   "parse_json", "json_encode", "json_get", "has_field", "dict_get", "dict_set", "dict_has", "dict_keys",
   "dict_values", "set_header", "geo_distance", "verify_password", "ct_eq", "decrypt", "base64_encode",
   "base64_decode", "authenticate", "embed", "memory_put", "add_days", "add_hours", "date_parts", "format_date",
   "days_between", "days_in_month", "is_leap_year", "weekday_name", "subgraph_nodes", "subgraph_json",
   "memory_score", "assert_eq", "assert_contains", "confidence", "toon_encode", "toon_decode", "dag_phases",
   "topo_sort", "fit_to_budget", "map", "fuzzy_find_best", "hashline_read", "hashline_edit", "compact_list",
   "budget_check", "vault_validate", "compress_html", "estimate_tokens", "extract_entities", "extract_param",
   "squeeze", "to_int", "pdf_classify", "pdf_to_markdown", "pdf_extract_regions", "pdf_ocr", "pdf_create",
   "pdf_add_page", "pdf_write_text", "pdf_draw_line", "pdf_draw_rect", "pdf_save", "pdf_merge", "pdf_split",
   "pdf_metadata", "pdf_set_metadata", "html_to_pdf", "hex_encode", "hex_decode", "regex_match", "regex_captures",
   "regex_replace", "pdf_draw_table", "pdf_add_image", "pdf_set_page_header", "pdf_set_page_footer",
   "pdf_page_numbers", "pdf_watermark", "pdf_fill_form", "pdf_rotate_page", "pdf_delete_pages",
   "pdf_extract_images", "ical_parse", "ical_generate", "vcard_parse", "vcard_generate", "svg_rect", "svg_circle",
   "svg_line", "svg_text", "svg_path", "svg_group", "svg_canvas", "diagram_style", "svg_sketchy_filter",
   "svg_icon", "svg_callout", "chart_bar", "chart_donut", "chart_line", "chart_scatter", "chart_area",
   "chart_radar", "chart_heatmap", "chart_boxplot", "color_palette", "svg_generate", "svg_canvas_preset",
   "diagram_tree", "diagram_org_chart", "diagram_flowchart", "diagram_layers", "diagram_sequence",
   "diagram_timeline", "diagram_gantt", "diagram_process", "diagram_loop", "diagram_venn", "diagram_quadrant",
   "diagram_pyramid", "diagram_nested", "diagram_medallion", "diagram_er", "diagram_state", "diagram_swimlane",
   "diagram_data_flow", "diagram_high_level", "diagram_architecture", "infographic_qa", "reflex_predict",
   "reflex_metrics", "reflex_tokenize", "reflex_detokenize", "reflex_bpe_train", "reflex_bpe_encode",
   "reflex_bpe_decode", "media_retain", "media_release", "media_bind_origin", "json_validate", "text_chunk",
   "grant_issue", "grant_subgrant", "grant_revoke", "grant_use", "db_execute_with_grant", "ledger_count",
   "ledger_head", "to_float_or", "to_int_or", "lomb_scargle", "spectral_peak", "date_parse_iso", "date_diff_days",
   "date_format_iso", "normal_sample"]

/-- mirrors src/builtins_classification.rs:117-122 -/
def classify (name : String) : Option BuiltClass :=
  if name ∈ sinksIrreversible then some ⟨.sink, .irreversible⟩
  else if name ∈ sinksReversible then some ⟨.sink, .reversible⟩
  else if name ∈ sourcesPure then some ⟨.source, .pure⟩
  else if name ∈ sourcesReversible then some ⟨.source, .reversible⟩
  else if name ∈ liftsPure then some ⟨.lift, .pure⟩
  else if name ∈ liftsReversible then some ⟨.lift, .reversible⟩
  else if name ∈ liftsIrreversible then some ⟨.lift, .irreversible⟩
  else if name ∈ pures then some ⟨.pure, .pure⟩
  else none

end Metalogos.Mcp
